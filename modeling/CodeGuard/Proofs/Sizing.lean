import CodeGuard.SizeTable

/-!
# CodeGuard.Proofs.Sizing

Which lists of sizes are size tables, what is wrong with the others, and how the sizes of a table
relate to each other and to their sub-blocks.

* `SizeTable.Orderly`: the rules for the entries, one by one and in their order.
* `SizeTable.dvd_of_mem_of_le`: of two sizes, the smaller divides the greater.
* `SizeTable.subdivisions_mul_subBlockSize`: the sub-blocks of a region fill it.
* `SizeTable.firstFault_eq_some_iff`: the fault that is found is that of the first entry to break a
  rule.
* `SizeTable.ofList_sizes`: a table is made again from its own sizes.
* `SizeTable.ofList_accepts`: exactly the orderly lists are accepted, and unchanged.
-/

namespace CodeGuard
namespace SizeTable

variable {t : SizeTable} {d p : Nat} {sizes before rest : List Nat} {e : Error}

/-! ## The rules -/

/-- Not too many sizes, and a way to cut a region that the unit knows. -/
def Framed (d : Nat) (sizes : List Nat) : Prop :=
  (1 ≤ sizes.length ∧ sizes.length ≤ 16) ∧ (d = 1 ∨ d = 2 ∨ d = 4 ∨ d = 8)

/-- The size of a region, and of one that can be cut into `d` sub-blocks. -/
def Usable (d s : Nat) : Prop :=
  (s.isPowerOfTwo ∧ 32 ≤ s ∧ s ≤ 0x80000000) ∧ (1 < d → 256 ≤ s)

structure Orderly (d : Nat) (sizes : List Nat) : Prop where
  usable : ∀ s ∈ sizes, Usable d s
  ascending : sizes.Pairwise (· < ·)

/-- How `s` breaks a rule that stands behind the entries `before`. Its own size is looked at first,
then its predecessor. -/
inductive Breaks (d : Nat) (before : List Nat) (s : Nat) : Error → Prop where
  | size : ¬ Usable d s → Breaks d before s .invalidRegionSize
  | order {p : Nat} :
      Usable d s → before.getLast? = some p → s ≤ p → Breaks d before s .invalidSizeTable

/-- What is wrong with a list: as a whole, else with the first entry to break a rule. -/
inductive Faulty (d : Nat) (sizes : List Nat) : Error → Prop where
  | frame : ¬ Framed d sizes → Faulty d sizes .invalidSizeTable
  | entry {before after : List Nat} {s : Nat} {e : Error} :
      Framed d sizes → sizes = before ++ s :: after → Orderly d before → Breaks d before s e →
      Faulty d sizes e

theorem listable_iff_usable {s : Nat} : Listable d s ↔ Usable d s := by
  rw [Listable, Usable, RegionSize.ofBytes?_isSome_iff]

theorem Usable.pos {s : Nat} (h : Usable d s) : 0 < s := by
  have := h.1.2.1
  omega

/-- Nothing is said of the first entry's predecessor, since there is no size zero. -/
theorem firstFault_eq_none_iff_orderly : firstFault d 0 sizes = none ↔ Orderly d sizes := by
  rw [firstFault_eq_none_iff, List.pairwise_cons]
  constructor
  · rintro ⟨hlist, -, hasc⟩
    exact ⟨fun s hs => listable_iff_usable.mp (hlist s hs), hasc⟩
  · intro h
    exact ⟨fun s hs => listable_iff_usable.mpr (h.usable s hs), fun s hs => (h.usable s hs).pos,
      h.ascending⟩

/-! ## The sizes of a table -/

variable {s s' : Nat}

theorem usable_of_mem (h : s ∈ t.sizes) : Usable t.subdivisions s :=
  listable_iff_usable.mp (t.listable s h)

theorem isPowerOfTwo_of_mem (h : s ∈ t.sizes) : s.isPowerOfTwo :=
  (usable_of_mem h).1.1

theorem thirtyTwo_le_of_mem (h : s ∈ t.sizes) : 32 ≤ s :=
  (usable_of_mem h).1.2.1

theorem le_of_mem (h : s ∈ t.sizes) : s ≤ 0x80000000 :=
  (usable_of_mem h).1.2.2

theorem pos_of_mem (h : s ∈ t.sizes) : 0 < s :=
  (usable_of_mem h).pos

theorem minSubdivided_le_of_mem (h : s ∈ t.sizes) (hd : 1 < t.subdivisions) : 256 ≤ s :=
  (usable_of_mem h).2 hd

theorem dvd_of_mem_of_le (h : s ∈ t.sizes) (h' : s' ∈ t.sizes) (hle : s ≤ s') : s ∣ s' :=
  dvd_of_isPowerOfTwo_of_le (isPowerOfTwo_of_mem h) (isPowerOfTwo_of_mem h') hle

theorem thirtyTwo_dvd_of_mem (h : s ∈ t.sizes) : 32 ∣ s :=
  dvd_of_isPowerOfTwo_of_le ⟨5, rfl⟩ (isPowerOfTwo_of_mem h) (thirtyTwo_le_of_mem h)

theorem subdivisions_cases (t : SizeTable) :
    t.subdivisions = 1 ∨ t.subdivisions = 2 ∨ t.subdivisions = 4 ∨ t.subdivisions = 8 := by
  simpa using t.subdivisions_mem

theorem subdivisions_pos (t : SizeTable) : 0 < t.subdivisions := by
  rcases t.subdivisions_cases with hd | hd | hd | hd <;> omega

theorem subdivisions_mul_subBlockSize (h : s ∈ t.sizes) :
    t.subdivisions * t.subBlockSize s = s := by
  have h32 := thirtyTwo_dvd_of_mem h
  unfold subBlockSize
  rcases t.subdivisions_cases with hd | hd | hd | hd <;> rw [hd] <;> omega

/-- The sub-blocks of a smaller size are smaller, so they fill those of a greater one. -/
theorem subBlockSize_dvd_subBlockSize (h : s ∈ t.sizes) (h' : s' ∈ t.sizes) (hle : s ≤ s') :
    t.subBlockSize s ∣ t.subBlockSize s' := by
  refine Nat.dvd_of_mul_dvd_mul_left t.subdivisions_pos ?_
  rw [subdivisions_mul_subBlockSize h, subdivisions_mul_subBlockSize h']
  exact dvd_of_mem_of_le h h' hle

theorem subBlockSize_pos (h : s ∈ t.sizes) : 0 < t.subBlockSize s := by
  have hs := pos_of_mem h
  rw [← subdivisions_mul_subBlockSize h] at hs
  exact Nat.pos_of_mul_pos_left hs

/-- A region that is cut has 256 bytes or more. -/
theorem thirtyTwo_le_subBlockSize (h : s ∈ t.sizes) : 32 ≤ t.subBlockSize s := by
  have h32 := thirtyTwo_le_of_mem h
  have hcut := minSubdivided_le_of_mem h
  unfold subBlockSize
  rcases t.subdivisions_cases with hd | hd | hd | hd <;> rw [hd] at hcut ⊢ <;> omega

/-- Fewer sub-blocks than there are do not fill the region. -/
theorem mul_subBlockSize_lt {k : Nat} (h : s ∈ t.sizes) (hk : k < t.subdivisions) :
    k * t.subBlockSize s < s := by
  have hlt := Nat.mul_lt_mul_of_pos_right hk (subBlockSize_pos h)
  rwa [subdivisions_mul_subBlockSize h] at hlt

theorem eighth_mul_eighthsPerSubBlock (h : s ∈ t.sizes) :
    s / Limits.subregions * t.eighthsPerSubBlock = t.subBlockSize s := by
  have h32 := thirtyTwo_dvd_of_mem h
  unfold subBlockSize eighthsPerSubBlock
  rcases t.subdivisions_cases with hd | hd | hd | hd <;> simp only [hd, Limits.subregions] <;> omega

theorem eighthsPerSubBlock_pos (t : SizeTable) : 0 < t.eighthsPerSubBlock := by
  unfold eighthsPerSubBlock
  rcases t.subdivisions_cases with hd | hd | hd | hd <;> rw [hd] <;> decide

theorem subdivisions_mul_eighthsPerSubBlock (t : SizeTable) :
    t.subdivisions * t.eighthsPerSubBlock = Limits.subregions := by
  unfold eighthsPerSubBlock
  rcases t.subdivisions_cases with hd | hd | hd | hd <;> rw [hd] <;> rfl

theorem mem_alignedAt {a : Nat} : s ∈ t.alignedAt a ↔ s ∈ t.sizes ∧ a % s = 0 := by
  simp [alignedAt]

/-! ## The first fault -/

/-- Entries without a fault are passed over. -/
theorem firstFault_append (h : firstFault d p before = none) :
    firstFault d p (before ++ rest) = firstFault d (before.getLast?.getD p) rest := by
  induction before generalizing p with
  | nil => rfl
  | cons s before ih =>
    simp only [firstFault] at h
    split at h
    · cases h
    · rename_i hs
      split at h
      · cases h
      · rename_i hlt
        rw [List.cons_append, firstFault, if_neg hs, if_neg hlt, ih h, List.getLast?_cons,
          Option.getD_some]

theorem exists_of_firstFault (h : firstFault d p sizes = some e) :
    ∃ before s after, sizes = before ++ s :: after ∧ firstFault d p before = none ∧
      (¬ Usable d s ∧ e = .invalidRegionSize ∨
        Usable d s ∧ s ≤ before.getLast?.getD p ∧ e = .invalidSizeTable) := by
  induction sizes generalizing p with
  | nil => cases h
  | cons s rest ih =>
    simp only [firstFault] at h
    split at h
    · rename_i hs
      cases h
      exact ⟨[], s, rest, rfl, rfl, .inl ⟨fun hu => hs (listable_iff_usable.mpr hu), rfl⟩⟩
    · rename_i hs
      have hu := listable_iff_usable.mp (Decidable.not_not.mp hs)
      split at h
      · rename_i hle
        cases h
        exact ⟨[], s, rest, rfl, rfl, .inr ⟨hu, hle, rfl⟩⟩
      · rename_i hlt
        obtain ⟨before, s', after, rfl, hnone, hwhy⟩ := ih h
        refine ⟨s :: before, s', after, rfl, ?_, ?_⟩
        · rw [firstFault, if_neg hs, if_neg hlt, hnone]
        · rwa [List.getLast?_cons, Option.getD_some]

theorem firstFault_eq_some_iff : firstFault d 0 sizes = some e ↔
    ∃ before s after, sizes = before ++ s :: after ∧ Orderly d before ∧ Breaks d before s e := by
  constructor
  · intro h
    obtain ⟨before, s, after, rfl, hnone, hwhy⟩ := exists_of_firstFault h
    refine ⟨before, s, after, rfl, firstFault_eq_none_iff_orderly.mp hnone, ?_⟩
    rcases hwhy with ⟨hu, rfl⟩ | ⟨hu, hle, rfl⟩
    · exact .size hu
    · cases hlast : before.getLast? with
      | none =>
        rw [hlast, Option.getD_none] at hle
        exact absurd hu.pos (Nat.not_lt.mpr hle)
      | some p =>
        rw [hlast, Option.getD_some] at hle
        exact .order hu hlast hle
  · rintro ⟨before, s, after, rfl, hbefore, hwhy⟩
    rw [firstFault_append (firstFault_eq_none_iff_orderly.mpr hbefore), firstFault]
    cases hwhy with
    | size hu => rw [if_pos (fun hl => hu (listable_iff_usable.mp hl))]
    | order hu hlast hle =>
      rw [if_neg (not_not_intro (listable_iff_usable.mpr hu)), hlast, Option.getD_some, if_pos hle]

/-! ## The answer -/

theorem ofList_eq_ok (h : ofList sizes d = .ok t) : t.sizes = sizes ∧ t.subdivisions = d := by
  simp only [ofList] at h
  split at h
  · cases h
  · split at h
    · split at h
      · cases h
      · cases h
        exact ⟨rfl, rfl⟩
    · cases h

theorem ofList_of_not_framed (h : ¬ Framed d sizes) : ofList sizes d = .error .invalidSizeTable := by
  simp only [ofList]
  split
  · rfl
  · rename_i hlen
    split
    · rename_i hsub
      refine absurd ⟨⟨?_, ?_⟩, by simpa using hsub⟩ h
      · exact List.length_pos_iff.mpr fun hnil => hlen (.inl hnil)
      · exact Nat.not_lt.mp fun hlong => hlen (.inr hlong)
    · rfl

section Framed

variable (h : Framed d sizes)
include h

theorem Framed.length_ok : ¬ (sizes = [] ∨ maxEntries < sizes.length) := by
  rintro (hnil | hlong)
  · rw [hnil] at h
    exact absurd h.1.1 (by decide)
  · exact Nat.not_lt.mpr h.1.2 hlong

theorem Framed.subdivisions_mem : d ∈ [1, 2, 4, 8] := by
  simpa using h.2

theorem ofList_of_fault (hfault : firstFault d 0 sizes = some e) : ofList sizes d = .error e := by
  simp only [ofList, dif_neg h.length_ok, dif_pos h.subdivisions_mem]
  split
  · rename_i e' he'
    rw [hfault] at he'
    cases he'
    rfl
  · rename_i hnone
    rw [hfault] at hnone
    cases hnone

theorem exists_ofList (horderly : Orderly d sizes) : ∃ t, ofList sizes d = .ok t := by
  have hnone := firstFault_eq_none_iff_orderly.mpr horderly
  simp only [ofList, dif_neg h.length_ok, dif_pos h.subdivisions_mem]
  split
  · rename_i e he
    rw [hnone] at he
    cases he
  · exact ⟨_, rfl⟩

end Framed

theorem framed_sizes (t : SizeTable) : Framed t.subdivisions t.sizes :=
  ⟨⟨List.length_pos_iff.mpr t.sizes_ne_nil, t.length_le⟩, t.subdivisions_cases⟩

theorem orderly_sizes (t : SizeTable) : Orderly t.subdivisions t.sizes :=
  ⟨fun _ hs => usable_of_mem hs, t.ascending⟩

/-- A table is made again from its own sizes. -/
theorem ofList_sizes (t : SizeTable) : ofList t.sizes t.subdivisions = .ok t := by
  obtain ⟨t', h⟩ := exists_ofList t.framed_sizes t.orderly_sizes
  obtain ⟨hsizes, hsub⟩ := ofList_eq_ok h
  have ht : t' = t := by
    cases t'
    cases t
    cases hsizes
    cases hsub
    rfl
  rw [h, ht]

theorem Faulty.ofList (h : Faulty d sizes e) : ofList sizes d = .error e := by
  cases h with
  | frame hframe => exact ofList_of_not_framed hframe
  | entry hframe hsplit hbefore hwhy =>
    exact ofList_of_fault hframe (firstFault_eq_some_iff.mpr ⟨_, _, _, hsplit, hbefore, hwhy⟩)

theorem faulty_or_orderly (d : Nat) (sizes : List Nat) :
    (∃ e, Faulty d sizes e) ∨ Framed d sizes ∧ Orderly d sizes := by
  by_cases hframe : Framed d sizes
  · cases hfault : firstFault d 0 sizes with
    | some e =>
      obtain ⟨before, s, after, hsplit, hbefore, hwhy⟩ := firstFault_eq_some_iff.mp hfault
      exact .inl ⟨e, .entry hframe hsplit hbefore hwhy⟩
    | none => exact .inr ⟨hframe, firstFault_eq_none_iff_orderly.mp hfault⟩
  · exact .inl ⟨_, .frame hframe⟩

/-- **Exactly the orderly lists are size tables.** From one to sixteen sizes that a region can have,
each greater than the one before it, are a table for 1, 2, 4 or 8 sub-blocks, if none is too small
to be cut. Any other list is refused for its length or its sub-blocks; else for the first entry that
breaks a rule. A table has the sizes that it was made from, so cutting its regions otherwise is
making it anew. -/
theorem ofList_accepts (sizes : List Nat) (d : Nat) :
    ((∃ t, ofList sizes d = .ok t) ↔ Framed d sizes ∧ Orderly d sizes) ∧
    (∀ e, ofList sizes d = .error e ↔ Faulty d sizes e) ∧
    ∀ t, ofList sizes d = .ok t → t.sizes = sizes ∧ t.subdivisions = d ∧
      (∀ d', t.resubdivide d' = ofList sizes d') ∧ t.resubdivide d = .ok t := by
  have hmake : Framed d sizes ∧ Orderly d sizes → ∃ t, ofList sizes d = .ok t :=
    fun ⟨hframe, horderly⟩ => exists_ofList hframe horderly
  refine ⟨⟨?_, hmake⟩, fun e => ⟨?_, Faulty.ofList⟩, ?_⟩
  · rintro ⟨t, ht⟩
    obtain ⟨rfl, rfl⟩ := ofList_eq_ok ht
    exact ⟨t.framed_sizes, t.orderly_sizes⟩
  · intro he
    rcases faulty_or_orderly d sizes with ⟨e', hfaulty⟩ | hgood
    · rw [hfaulty.ofList] at he
      cases he
      exact hfaulty
    · obtain ⟨t, ht⟩ := hmake hgood
      rw [ht] at he
      cases he
  · intro t ht
    obtain ⟨rfl, rfl⟩ := ofList_eq_ok ht
    exact ⟨rfl, rfl, fun _ => rfl, t.ofList_sizes⟩

/-- Of two faults the first is reported: 3000 is no size of a region, and only behind it comes a
size that is too small. -/
theorem ofList_accepts_twoFaults :
    ofList [1024, 3000, 512] 8 = .error .invalidRegionSize ∧
      Faulty 8 [1024, 3000, 512] .invalidRegionSize :=
  have h : ofList [1024, 3000, 512] 8 = .error .invalidRegionSize := by rfl
  ⟨h, ((ofList_accepts _ _).2.1 _).mp h⟩

end SizeTable
end CodeGuard
