import CodeGuard.Proofs.Cover

/-!
# CodeGuard.Proofs.Budget

What the budget of a scan decides.

* `Layout.Scans.widen`, `Layout.Scans.cut`: a scan that covers its image takes the same blocks
  under every larger budget, and under a smaller one it breaks off among them.
* `Layout.cover_budget`: so the budget decides whether there is a layout, never which one.
-/

namespace CodeGuard

variable {t : SizeTable} {n a r left : Nat} {bs : List Block}

namespace Layout

@[simp] theorem covered_cons (b : Block) (bs : List Block) :
    (⟨b :: bs⟩ : Layout).covered = b.consumed + (⟨bs⟩ : Layout).covered := rfl

namespace Scans

theorem unique {bs' : List Block} {left' : Nat} (h : Scans t n a r bs left)
    (h' : Scans t n a r bs' left') : bs = bs' ∧ left = left' :=
  Prod.ext_iff.mp (h.coverFrom_eq.symm.trans h'.coverFrom_eq)

/-- The same blocks come under every budget that is enough for them. -/
theorem widen (h : Scans t n a r bs left) (hleft : left = 0) :
    ∀ m, bs.length ≤ m → Scans t m a r bs 0 := by
  induction h with
  | ended => exact fun _ _ => .ended
  | spent hr => omega
  | stuck hr => omega
  | last hr hb hend =>
    intro m hm
    obtain ⟨m, rfl⟩ := Nat.exists_eq_add_of_le' hm
    exact .last hr hb hend
  | step hr hb hno hs _ ih =>
    intro m hm
    obtain ⟨m, rfl⟩ := Nat.exists_eq_add_of_le' (Nat.le_trans (Nat.le_add_left 1 _) hm)
    exact .step hr hb hno hs (ih hleft m (Nat.le_of_succ_le_succ hm))

/-- Under a smaller budget the scan takes as many of the blocks as it may. -/
theorem cut (h : Scans t n a r bs left) :
    ∀ k, k < bs.length → Scans t k a r (bs.take k) (r - (⟨bs.take k⟩ : Layout).covered) := by
  induction h with
  | ended => exact fun _ hk => absurd hk (Nat.not_lt_zero _)
  | spent => exact fun _ hk => absurd hk (Nat.not_lt_zero _)
  | stuck => exact fun _ hk => absurd hk (Nat.not_lt_zero _)
  | last hr =>
    intro k hk
    obtain rfl : k = 0 := Nat.lt_one_iff.mp hk
    exact .spent hr
  | step hr hb hno hs _ ih =>
    intro k hk
    cases k with
    | zero => exact .spent hr
    | succ k =>
      rw [List.take_succ_cons, covered_cons, Block.consumed_whole, ← Nat.sub_sub]
      exact .step hr hb hno hs (ih k (Nat.lt_of_succ_lt_succ hk))

end Scans

variable {total maxSlots : Nat} {l : Layout}

/-- An image with a tiling that keeps to the budget has a layout with no more blocks. -/
theorem exists_cover_of_tiles (h : Tiles t 0 total bs) (hlen : bs.length ≤ min maxSlots 16) :
    ∃ l, cover total maxSlots t = .ok l ∧ l.length ≤ bs.length := by
  obtain ⟨hleft, hfew⟩ := coverFrom_of_tiles t _ 0 total bs (by rwa [Nat.zero_add]) hlen
  exact ⟨⟨_⟩, cover_eq_ok_iff.mpr (coverFrom_eq_iff.mp (Prod.ext rfl hleft)), hfew⟩

/-- **The budget decides whether there is a layout, never which one.** A layout that was found is
found again under every budget that is enough for it. Under a smaller budget its first blocks are
taken, as many as there may be, and what lies behind them is reported. -/
theorem cover_budget (h : cover total maxSlots t = .ok l) :
    (∀ m, l.length ≤ m → cover total m t = .ok l) ∧
    ∀ k, k < l.length → (⟨l.blocks.take k⟩ : Layout).covered < total ∧
      cover total k t = .error ⟨total - (⟨l.blocks.take k⟩ : Layout).covered, k⟩ := by
  have hscan := cover_eq_ok_iff.mp h
  have hlen := hscan.length_le
  refine ⟨fun m hm => cover_eq_ok_iff.mpr (hscan.widen rfl _ (by rw [length] at hm; omega)), ?_⟩
  intro k hk
  rw [length] at hk
  have hcut := hscan.cut k hk
  -- a scan that covered the image with `k` blocks would have done so under the larger budget
  have hpos : (⟨l.blocks.take k⟩ : Layout).covered < total := by
    by_contra hge
    have hwide := hcut.widen (by omega) (min maxSlots 16)
      (Nat.le_trans (List.length_take_le _ _) (by omega))
    have htake := congrArg List.length (hwide.unique hscan).1
    rw [List.length_take_of_le (Nat.le_of_lt hk)] at htake
    exact Nat.ne_of_lt hk htake
  refine ⟨hpos, cover_eq_error_iff.mpr ⟨l.blocks.take k, ?_, by simp only; omega, ?_⟩⟩
  · rwa [Nat.min_eq_left (by omega)]
  · exact List.length_take_of_le (Nat.le_of_lt hk)

/-- 300 KB take three blocks, under a budget of a thousand too; under a budget of two, 12 KB are
left. -/
theorem cover_budget_reference :
    cover 0x4B000 6 .reference =
        .ok ⟨[.whole 0 0x40000, .whole 0x40000 0x8000, ⟨0x48000, 0x4000, 6⟩]⟩ ∧
      cover 0x4B000 1000 .reference =
        .ok ⟨[.whole 0 0x40000, .whole 0x40000 0x8000, ⟨0x48000, 0x4000, 6⟩]⟩ ∧
      cover 0x4B000 2 .reference = .error ⟨0x3000, 2⟩ :=
  have h : cover 0x4B000 6 .reference =
    .ok ⟨[.whole 0 0x40000, .whole 0x40000 0x8000, ⟨0x48000, 0x4000, 6⟩]⟩ := by rfl
  ⟨h, (cover_budget h).1 1000 (by decide), ((cover_budget h).2 2 (by decide)).2⟩

end Layout
end CodeGuard
