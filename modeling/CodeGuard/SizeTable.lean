import CodeGuard.Error
import CodeGuard.RegionSize

/-!
# CodeGuard.SizeTable

Which region sizes may be used for code, and into how many equal sub-blocks the last region may be
cut. A `SizeTable` carries the rules that every table keeps: at most sixteen sizes, strictly
ascending, each the size of a region, and none under 256 bytes when sub-blocks are in use, since
the unit ignores the disable mask of a smaller region.

* `SizeTable.ofList`: a table from a list, or the first rule that fails.
* `SizeTable.firstFault_eq_none_iff`: no fault is found exactly when all entries keep the rules.
-/

namespace CodeGuard

/-- The size of some region, and large enough to be cut when sub-blocks are in use. -/
def Listable (subdivisions size : Nat) : Prop :=
  (RegionSize.ofBytes? size).isSome ∧ (1 < subdivisions → Limits.minSubdivided ≤ size)

instance (subdivisions size : Nat) : Decidable (Listable subdivisions size) := by
  unfold Listable
  infer_instance

structure SizeTable where
  sizes : List Nat
  subdivisions : Nat
  sizes_ne_nil : sizes ≠ []
  length_le : sizes.length ≤ 16
  subdivisions_mem : subdivisions ∈ [1, 2, 4, 8]
  listable : ∀ s ∈ sizes, Listable subdivisions s
  ascending : sizes.Pairwise (· < ·)
  deriving DecidableEq

namespace SizeTable

abbrev maxEntries : Nat := Limits.maxRegions

/-- Checks the entries in order, each after its `previous` one. -/
def firstFault (subdivisions : Nat) : Nat → List Nat → Option Error
  | _, [] => none
  | previous, size :: rest =>
    if ¬ Listable subdivisions size then some .invalidRegionSize
    else if size ≤ previous then some .invalidSizeTable
    else firstFault subdivisions size rest

theorem firstFault_eq_none_iff {subdivisions previous : Nat} {sizes : List Nat} :
    firstFault subdivisions previous sizes = none ↔
      (∀ s ∈ sizes, Listable subdivisions s) ∧ (previous :: sizes).Pairwise (· < ·) := by
  induction sizes generalizing previous with
  | nil => simp [firstFault]
  | cons size rest ih =>
    simp only [firstFault]
    split
    · rename_i h
      simp [h]
    · rename_i h
      have h := Decidable.not_not.mp h
      split
      · rename_i hle
        simp only [reduceCtorEq, List.pairwise_cons, List.mem_cons, false_iff]
        rintro ⟨_, hp, _⟩
        have := hp size (.inl rfl)
        omega
      · rename_i hlt
        rw [ih]
        simp only [List.pairwise_cons, List.mem_cons, forall_eq_or_imp, h, true_and]
        constructor
        · rintro ⟨hl, hs, hr⟩
          exact ⟨hl, ⟨by omega, fun s m => Nat.lt_trans (by omega) (hs s m)⟩, hs, hr⟩
        · rintro ⟨hl, _, hs, hr⟩
          exact ⟨hl, hs, hr⟩

def ofList (sizes : List Nat) (subdivisions : Nat) : Except Error SizeTable :=
  if hlen : sizes = [] ∨ maxEntries < sizes.length then
    .error .invalidSizeTable
  else if hsub : subdivisions ∈ [1, 2, 4, 8] then
    match hf : firstFault subdivisions 0 sizes with
    | some e => .error e
    | none =>
      have hs := firstFault_eq_none_iff.mp hf
      .ok {
        sizes
        subdivisions
        sizes_ne_nil := fun h => hlen (.inl h)
        length_le := Nat.not_lt.mp fun h => hlen (.inr h)
        subdivisions_mem := hsub
        listable := hs.1
        ascending := hs.2.tail }
  else
    .error .invalidSizeTable

def resubdivide (t : SizeTable) (subdivisions : Nat) : Except Error SizeTable :=
  ofList t.sizes subdivisions

/-- The sizes of the reference part, cut into eighths. -/
def reference : SizeTable where
  sizes := Limits.codeRegionSizes
  subdivisions := Limits.subregions
  sizes_ne_nil := by decide
  length_le := by decide
  subdivisions_mem := by decide
  listable := by decide
  ascending := by decide

def subBlockSize (t : SizeTable) (size : Nat) : Nat :=
  size / t.subdivisions

def eighthsPerSubBlock (t : SizeTable) : Nat :=
  Limits.subregions / t.subdivisions

def contains (t : SizeTable) (size : Nat) : Bool :=
  t.sizes.contains size

def largest (t : SizeTable) : Nat :=
  t.sizes.getLastD 0

/-- The sizes that a region starting at `address` can have. -/
def alignedAt (t : SizeTable) (address : Nat) : List Nat :=
  t.sizes.filter fun size => address % size = 0

end SizeTable
end CodeGuard
