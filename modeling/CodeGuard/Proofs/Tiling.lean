import Mathlib.Data.List.Chain
import CodeGuard.Layout
import CodeGuard.Proofs.Sizing

/-!
# CodeGuard.Proofs.Tiling

What a cut of an image is, said without the greedy scan. `Tiles t a e bs`: the blocks `bs` follow
each other from `a` to `e`, each of a listed size at a multiple of that size; all are used whole,
except that the last one may be used with its lowest sub-blocks only.

* `Tiles.countP_holds`: each address of the tiled stretch lies in exactly one block, and no other
  address lies in any.
* `Tiles.eighths_cases`: a partly used block counts its eighths in whole sub-blocks, and the unit
  honours its disable mask.
-/

namespace CodeGuard

namespace Block

/-- The lowest `k` sub-blocks of a region. -/
def lowest (t : SizeTable) (base size k : Nat) : Block :=
  ⟨base, size, k * t.eighthsPerSubBlock⟩

@[simp] theorem base_lowest (t : SizeTable) (a s k : Nat) : (lowest t a s k).base = a := rfl

@[simp] theorem finish_whole (a s : Nat) : (whole a s).finish = a + s := rfl

theorem consumed_lowest {t : SizeTable} {a s k : Nat} (hs : s ∈ t.sizes) (hk : 1 ≤ k) :
    (lowest t a s k).consumed = k * t.subBlockSize s := by
  have he := t.eighthsPerSubBlock_pos
  have hne : k * t.eighthsPerSubBlock ≠ 0 := Nat.mul_ne_zero (by omega) (by omega)
  rw [consumed, lowest, if_neg hne, ← SizeTable.eighth_mul_eighthsPerSubBlock hs]
  rw [Nat.mul_comm k, ← Nat.mul_assoc, Nat.mul_comm k]

theorem finish_lowest {t : SizeTable} {a s k : Nat} (hs : s ∈ t.sizes) (hk : 1 ≤ k) :
    (lowest t a s k).finish = a + k * t.subBlockSize s := by
  rw [finish, consumed_lowest hs hk, base_lowest]

def Holds (b : Block) (x : Nat) : Prop :=
  b.base ≤ x ∧ x < b.finish

instance (b : Block) (x : Nat) : Decidable (b.Holds x) := by
  unfold Holds
  infer_instance

theorem holds_whole {a s x : Nat} : (whole a s).Holds x ↔ a ≤ x ∧ x < a + s := Iff.rfl

theorem holds_lowest {t : SizeTable} {a s k x : Nat} (hs : s ∈ t.sizes) (hk : 1 ≤ k) :
    (lowest t a s k).Holds x ↔ a ≤ x ∧ x < a + k * t.subBlockSize s := by
  rw [Holds, finish_lowest hs hk, base_lowest]

end Block

/-! ## Tilings -/

inductive Tiles (t : SizeTable) : Nat → Nat → List Block → Prop where
  | nil {a : Nat} : Tiles t a a []
  | whole {a e s : Nat} {rest : List Block} :
      s ∈ t.sizes → a % s = 0 → Tiles t (a + s) e rest → Tiles t a e (.whole a s :: rest)
  | lowest {a s k : Nat} :
      s ∈ t.sizes → a % s = 0 → 1 ≤ k → k < t.subdivisions →
      Tiles t a (a + k * t.subBlockSize s) [.lowest t a s k]

namespace Tiles

variable {t : SizeTable} {a e : Nat} {bs : List Block}

theorem nil_iff : Tiles t a e [] ↔ e = a := by
  constructor
  · intro h
    cases h
    rfl
  · rintro rfl
    exact .nil

theorem le (h : Tiles t a e bs) : a ≤ e := by
  induction h with
  | nil => exact Nat.le_refl _
  | whole _ _ _ ih => omega
  | lowest => omega

theorem mem_sizes (h : Tiles t a e bs) : ∀ b ∈ bs, b.size ∈ t.sizes ∧ b.base % b.size = 0 := by
  induction h with
  | nil => intro b hb; cases hb
  | whole hs ha _ ih =>
    intro b hb
    rcases List.mem_cons.mp hb with rfl | hb
    · exact ⟨hs, ha⟩
    · exact ih b hb
  | lowest hs ha _ _ =>
    intro b hb
    rcases List.mem_singleton.mp hb with rfl
    exact ⟨hs, ha⟩

/-- Every block starts at or after the start of the tiling, and ends at or before its end. -/
theorem bounds (h : Tiles t a e bs) : ∀ b ∈ bs, a ≤ b.base ∧ b.finish ≤ e := by
  induction h with
  | nil => intro b hb; cases hb
  | whole hs _ hrest ih =>
    intro b hb
    rcases List.mem_cons.mp hb with rfl | hb
    · exact ⟨Nat.le_refl _, hrest.le⟩
    · have := ih b hb
      omega
  | lowest hs _ hk _ =>
    intro b hb
    rcases List.mem_singleton.mp hb with rfl
    rw [Block.finish_lowest hs hk]
    exact ⟨Nat.le_refl _, Nat.le_refl _⟩

theorem consumed_pos (h : Tiles t a e bs) : ∀ b ∈ bs, 0 < b.consumed := by
  induction h with
  | nil => intro b hb; cases hb
  | whole hs _ _ ih =>
    intro b hb
    rcases List.mem_cons.mp hb with rfl | hb
    · exact SizeTable.pos_of_mem hs
    · exact ih b hb
  | lowest hs _ hk _ =>
    intro b hb
    rcases List.mem_singleton.mp hb with rfl
    rw [Block.consumed_lowest hs hk]
    exact Nat.mul_pos hk (SizeTable.subBlockSize_pos hs)

theorem base_head (h : Tiles t a e bs) : ∀ b ∈ bs.head?, b.base = a := by
  cases h with
  | nil => intro b hb; cases hb
  | whole => intro b hb; cases hb; rfl
  | lowest => intro b hb; cases hb; rfl

theorem chain (h : Tiles t a e bs) : bs.IsChain fun b b' => b'.base = b.finish := by
  induction h with
  | nil => exact .nil
  | whole _ _ hrest ih =>
    refine List.isChain_cons.mpr ⟨fun b hb => ?_, ih⟩
    rw [hrest.base_head b hb, Block.finish_whole]
  | lowest => exact .singleton _

theorem finish_getLast (h : Tiles t a e bs) : (bs.getLast?.map Block.finish).getD a = e := by
  induction h with
  | nil => rfl
  | @whole a e s rest _ _ hrest ih =>
    cases rest with
    | nil => cases hrest; rfl
    | cons b rest =>
      rw [List.getLast?_cons_cons, ← ih]
      simp [List.getLast?_cons]
  | lowest hs _ hk _ => exact Block.finish_lowest hs hk

theorem covered_add (h : Tiles t a e bs) : a + (⟨bs⟩ : Layout).covered = e := by
  induction h with
  | nil => rfl
  | whole _ _ _ ih =>
    simp only [Layout.covered, List.foldr_cons, Block.consumed_whole] at ih ⊢
    omega
  | lowest hs _ hk _ => simp [Layout.covered, Block.consumed_lowest hs hk]

theorem consumed_singleton {r : Nat} {b : Block} (h : Tiles t a (a + r) [b]) : b.consumed = r := by
  simpa [Layout.covered] using h.covered_add

theorem eighths_dropLast (h : Tiles t a e bs) : ∀ b ∈ bs.dropLast, b.eighths = 0 := by
  induction h with
  | nil => intro b hb; cases hb
  | @whole a e s rest _ _ _ ih =>
    cases rest with
    | nil => intro b hb; cases hb
    | cons c rest =>
      intro b hb
      rcases List.mem_cons.mp hb with rfl | hb
      · rfl
      · exact ih b hb
  | lowest => intro b hb; cases hb

/-- The mask of a block is empty, or takes out some sub-blocks of a region that is large enough for
the unit to look at it. -/
theorem eighths_cases (h : Tiles t a e bs) : ∀ b ∈ bs, b.eighths = 0 ∨
    1 ≤ b.eighths ∧ b.eighths ≤ 7 ∧ t.eighthsPerSubBlock ∣ b.eighths ∧ 256 ≤ b.size := by
  induction h with
  | nil => intro b hb; cases hb
  | whole _ _ _ ih =>
    intro b hb
    rcases List.mem_cons.mp hb with rfl | hb
    · exact .inl rfl
    · exact ih b hb
  | @lowest a s k hs _ hk hlt =>
    intro b hb
    rcases List.mem_singleton.mp hb with rfl
    have he := t.eighthsPerSubBlock_pos
    have hmul := t.subdivisions_mul_eighthsPerSubBlock
    have hup : (k + 1) * t.eighthsPerSubBlock ≤ 8 := calc
      _ ≤ t.subdivisions * t.eighthsPerSubBlock := Nat.mul_le_mul_right _ hlt
      _ = 8 := hmul
    have hlo : 1 ≤ k * t.eighthsPerSubBlock := Nat.mul_pos hk he
    rw [Nat.succ_mul] at hup
    refine .inr ⟨hlo, ?_, Nat.dvd_mul_left _ _, ?_⟩
    · show k * t.eighthsPerSubBlock ≤ 7
      omega
    · exact SizeTable.minSubdivided_le_of_mem hs (by omega)

theorem eighths_lt (h : Tiles t a e bs) : ∀ b ∈ bs, b.eighths < Limits.subregions := by
  intro b hb
  rcases h.eighths_cases b hb with h0 | ⟨-, h7, -⟩
  · rw [h0]
    exact Nat.zero_lt_succ 7
  · exact Nat.lt_succ_of_le h7

theorem pairwise (h : Tiles t a e bs) : bs.Pairwise fun b b' => b.finish ≤ b'.base := by
  induction h with
  | nil => exact .nil
  | whole _ _ hrest ih =>
    refine List.pairwise_cons.mpr ⟨fun b hb => ?_, ih⟩
    rw [Block.finish_whole]
    exact (hrest.bounds b hb).1
  | lowest => exact List.pairwise_singleton _ _

/-- Each address from `a` up to `e` lies in exactly one block, and no other address in any. -/
theorem countP_holds (h : Tiles t a e bs) (x : Nat) :
    bs.countP (fun b => decide (b.Holds x)) = if a ≤ x ∧ x < e then 1 else 0 := by
  induction h with
  | @nil a =>
    rw [if_neg (by omega)]
    rfl
  | @whole a e s rest hs _ hrest ih =>
    have hle := hrest.le
    have hpos := SizeTable.pos_of_mem hs
    rw [List.countP_cons, ih]
    simp only [decide_eq_true_eq, Block.holds_whole]
    by_cases h1 : a ≤ x ∧ x < a + s
    · rw [if_neg (by omega), if_pos h1, if_pos (by omega)]
    · by_cases h2 : a + s ≤ x ∧ x < e
      · rw [if_pos h2, if_neg h1, if_pos (by omega)]
      · rw [if_neg h2, if_neg h1, if_neg (by omega)]
  | lowest hs _ hk _ =>
    simp only [List.countP_singleton, decide_eq_true_eq, Block.holds_lowest hs hk]

theorem exists_holds_iff (h : Tiles t a e bs) (x : Nat) :
    (∃ b ∈ bs, b.Holds x) ↔ a ≤ x ∧ x < e := by
  have hpos : 0 < bs.countP (fun b => decide (b.Holds x)) ↔ ∃ b ∈ bs, b.Holds x := by
    simp [List.countP_pos_iff]
  rw [← hpos, h.countP_holds]
  split
  · rename_i hx
    exact ⟨fun _ => hx, fun _ => Nat.one_pos⟩
  · rename_i hx
    exact ⟨fun hlt => absurd hlt (Nat.lt_irrefl 0), fun hin => absurd hin hx⟩

/-- The blocks that tile `r` bytes from `a` on by themselves. -/
theorem singleton_iff {r : Nat} {b : Block} :
    Tiles t a (a + r) [b] ↔ b.size ∈ t.sizes ∧ a % b.size = 0 ∧
      (r = b.size ∧ b = .whole a b.size ∨
        ∃ k, 1 ≤ k ∧ k < t.subdivisions ∧ r = k * t.subBlockSize b.size ∧
          b = .lowest t a b.size k) := by
  constructor
  · intro h
    generalize he : a + r = e at h
    cases h with
    | whole hs ha hnil =>
      cases hnil
      exact ⟨hs, ha, .inl ⟨Nat.add_left_cancel he, rfl⟩⟩
    | lowest hs ha hk hkd =>
      exact ⟨hs, ha, .inr ⟨_, hk, hkd, Nat.add_left_cancel he, rfl⟩⟩
  · rintro ⟨hs, ha, ⟨hr, hb⟩ | ⟨k, hk, hkd, hr, hb⟩⟩
    · rw [hb, hr]
      exact .whole hs ha .nil
    · rw [hb, hr]
      exact .lowest hs ha hk hkd

end Tiles
end CodeGuard
