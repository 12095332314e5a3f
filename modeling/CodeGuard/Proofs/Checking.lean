import CodeGuard.Proofs.Cover
import CodeGuard.Protection
import CodeGuard.Sweep

/-!
# CodeGuard.Proofs.Checking

The check of layouts that were found, under the table that they were found with or any other.

* `Tiles.checkFrom_eq_ok`, `Tiles.checkFrom_eq_error`: of a tiling, nothing can be found wrong but
  a size that is not listed.
* `Layout.check_of_cover`: so a layout passes the check under its own table.
* `Layout.check_exact`: what the check answers under any table and for any size of the image.
-/

namespace CodeGuard

variable {t t' : SizeTable} {a e : Nat} {b : Block} {bs : List Block}

/-! ## Block by block -/

namespace Layout

/-- A block that stands where it is expected, at a multiple of its size, is passed over if its size
is listed. -/
theorem checkFrom_cons (hs : b.size ∈ t.sizes) (halign : b.base % b.size = 0)
    (heighths : b.eighths ≤ Limits.subregions) (rest : List Block) :
    checkFrom t b.base (b :: rest) = checkFrom t b.finish rest := by
  have hlisted : t.contains b.size = true := List.contains_iff_mem.mpr hs
  simp [checkFrom, hlisted, halign, heighths]

theorem checkFrom_whole {s : Nat} (hs : s ∈ t.sizes) (ha : a % s = 0) (rest : List Block) :
    checkFrom t a (.whole a s :: rest) = checkFrom t (a + s) rest :=
  checkFrom_cons (b := .whole a s) hs ha (Nat.zero_le _) rest

theorem checkFrom_cons_of_not_mem (hs : b.size ∉ t.sizes) (rest : List Block) :
    checkFrom t a (b :: rest) = .error .invalidRegionSize := by
  have hlisted : t.contains b.size ≠ true := mt List.contains_iff_mem.mp hs
  simp [checkFrom, hlisted]

end Layout

namespace Tiles

/-- The tiles may come from another table than the one that they are checked with. -/
theorem checkFrom_eq_ok (h : Tiles t a e bs) (hlisted : ∀ b ∈ bs, b.size ∈ t'.sizes) :
    Layout.checkFrom t' a bs = .ok e := by
  induction h with
  | nil => rfl
  | @whole a e s rest _ ha _ ih =>
    obtain ⟨hs', hrest⟩ := List.forall_mem_cons.mp hlisted
    rw [Layout.checkFrom_whole (s := s) hs' ha, ih hrest]
  | @lowest a s k hs ha hk hkd =>
    have hmem : Block.lowest t a s k ∈ [Block.lowest t a s k] := List.mem_singleton_self _
    have hstep := Layout.checkFrom_cons (hlisted _ hmem) ha
      (Nat.le_of_lt ((Tiles.lowest hs ha hk hkd).eighths_lt _ hmem)) []
    rw [Block.base_lowest, Block.finish_lowest hs hk] at hstep
    exact hstep

theorem checkFrom_eq_error (h : Tiles t a e bs) (hforeign : ∃ b ∈ bs, b.size ∉ t'.sizes) :
    Layout.checkFrom t' a bs = .error .invalidRegionSize := by
  induction h with
  | nil =>
    obtain ⟨b, hb, -⟩ := hforeign
    cases hb
  | @whole a e s rest _ ha _ ih =>
    by_cases hs' : s ∈ t'.sizes
    · -- the foreign size lies further on
      rw [Layout.checkFrom_whole hs' ha]
      refine ih ?_
      obtain ⟨b, hb, hsize⟩ := hforeign
      rcases List.mem_cons.mp hb with rfl | hb
      · exact absurd hs' hsize
      · exact ⟨b, hb, hsize⟩
    · exact Layout.checkFrom_cons_of_not_mem hs' rest
  | lowest =>
    obtain ⟨b, hb, hsize⟩ := hforeign
    rcases List.mem_singleton.mp hb with rfl
    exact Layout.checkFrom_cons_of_not_mem hsize []

end Tiles

/-! ## Layouts that were found -/

namespace Layout

variable {total maxSlots : Nat} {l : Layout}

/-- Some block has a size that the table does not list. -/
def Foreign (l : Layout) (t : SizeTable) : Prop :=
  ∃ b ∈ l.blocks, b.size ∉ t.sizes

theorem check_of_foreign (h : cover total maxSlots t = .ok l) (hforeign : l.Foreign t')
    (total' : Nat) : l.check total' t' = .error .invalidRegionSize := by
  simp only [check, Limits.codeBase, (tiles_of_cover h).1.checkFrom_eq_error hforeign]

theorem check_of_not_foreign (h : cover total maxSlots t = .ok l) (hown : ¬ l.Foreign t')
    (total' : Nat) :
    l.check total' t' = if total = total' then .ok () else .error .regionTableMismatch := by
  have hlisted : ∀ b ∈ l.blocks, b.size ∈ t'.sizes :=
    fun b hb => by_contra fun hsize => hown ⟨b, hb, hsize⟩
  simp only [check, Limits.codeBase, (tiles_of_cover h).1.checkFrom_eq_ok hlisted, Nat.sub_zero]

theorem not_foreign_of_cover (h : cover total maxSlots t = .ok l) : ¬ l.Foreign t := by
  rintro ⟨b, hb, hsize⟩
  exact hsize ((tiles_of_cover h).1.mem_sizes b hb).1

/-- A layout that was found passes the check. -/
theorem check_of_cover (h : cover total maxSlots t = .ok l) : l.check total t = .ok () := by
  rw [check_of_not_foreign h (not_foreign_of_cover h), if_pos rfl]

/-- What the check of a layout of `total` bytes answers where `total'` bytes are asked for and the
sizes are to be those of `t'`. -/
structure Checks (l : Layout) (total total' : Nat) (t' : SizeTable) : Prop where
  invalidRegionSize_iff : l.check total' t' = .error .invalidRegionSize ↔ l.Foreign t'
  regionTableMismatch_iff :
    l.check total' t' = .error .regionTableMismatch ↔ ¬ l.Foreign t' ∧ total' ≠ total
  ok_iff : l.check total' t' = .ok () ↔ ¬ l.Foreign t' ∧ total' = total
  ne_invalidAlignment : l.check total' t' ≠ .error .invalidAlignment

theorem checks_of_cover (h : cover total maxSlots t = .ok l) (total' : Nat) (t' : SizeTable) :
    l.Checks total total' t' := by
  by_cases hforeign : l.Foreign t'
  · have hcheck := check_of_foreign h hforeign total'
    constructor <;> simp [hcheck, hforeign]
  · have hcheck := check_of_not_foreign h hforeign total'
    by_cases htotal : total = total'
    · rw [if_pos htotal] at hcheck
      constructor <;> simp [hcheck, hforeign, htotal]
    · rw [if_neg htotal] at hcheck
      constructor <;> simp [hcheck, hforeign, Ne.symm htotal]

end Layout

/-! ## Where layouts are checked again -/

theorem Sweep.passes_eq (maxSlots : Nat) (t : SizeTable) (size : Nat) :
    passes maxSlots t size = (Layout.cover size maxSlots t).isOk := by
  rw [passes]
  cases h : Layout.cover size maxSlots t with
  | error s => rfl
  | ok l =>
    simp only [Layout.check_of_cover h]
    rfl

theorem Draft.table_ofLayout {config : Config} {l : Layout}
    (h : Layout.cover config.codeSize.toNat config.maxCodeSlots.toNat t = .ok l) :
    (ofLayout config t).table = RegionTable.build l config.codeSize config := by
  simp only [ofLayout, h, Layout.check_of_cover h]

namespace Layout

/-- **The check of a layout that was found is exact.** Whatever the table and the size that it is
held against, a size that is not listed comes first and a wrong total next; no block is ever out of
place. So nothing is found wrong where the layout is checked again: neither when sizes are tried
nor when a boot drafts its table. -/
theorem check_exact {t : SizeTable} {total maxSlots : Nat} {l : Layout}
    (h : cover total maxSlots t = .ok l) :
    (∀ total' t', l.Checks total total' t') ∧ l.check total t = .ok () ∧
      Sweep.passes maxSlots t total = true ∧
      ∀ config : Config, config.codeSize.toNat = total → config.maxCodeSlots.toNat = maxSlots →
        (Draft.ofLayout config t).table = RegionTable.build l config.codeSize config := by
  refine ⟨checks_of_cover h, check_of_cover h, ?_, ?_⟩
  · rw [Sweep.passes_eq, h]
    rfl
  · rintro config rfl rfl
    exact Draft.table_ofLayout h

/-- 104 KB in a block of 64 KB and one of which five eighths are used. Held against 105 KB the
layout has a wrong total; a table of 1 KB only refuses it before that. -/
theorem check_exact_reference :
    cover 0x1A000 6 .reference = .ok ⟨[.whole 0 0x10000, ⟨0x10000, 0x10000, 5⟩]⟩ ∧
      check ⟨[.whole 0 0x10000, ⟨0x10000, 0x10000, 5⟩]⟩ 0x1A400 .reference =
        .error .regionTableMismatch ∧
      check ⟨[.whole 0 0x10000, ⟨0x10000, 0x10000, 5⟩]⟩ 0x1A400
          ⟨[0x400], 8, by decide, by decide, by decide, by decide, by decide⟩ =
        .error .invalidRegionSize :=
  have h : cover 0x1A000 6 .reference = .ok ⟨[.whole 0 0x10000, ⟨0x10000, 0x10000, 5⟩]⟩ := by rfl
  ⟨h, ((check_exact h).1 0x1A400 .reference).regionTableMismatch_iff.mpr
      ⟨not_foreign_of_cover h, by decide⟩,
    ((check_exact h).1 0x1A400 _).invalidRegionSize_iff.mpr ⟨_, List.mem_cons_self, by decide⟩⟩

end Layout
end CodeGuard
