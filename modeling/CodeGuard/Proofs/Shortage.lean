import Mathlib.Data.Nat.ModEq
import CodeGuard.Proofs.Budget

/-!
# CodeGuard.Proofs.Shortage

Why an image cannot be cut, read off the report. Every block that is not the last one covers a
multiple of the smallest size of the table, and every block a multiple of that size's sub-block,
the granule of the table.

* `Tiles.granule_dvd`: only images of a whole number of granules can be tiled.
* `Layout.Scans.shortage`: a scan that leaves bytes over took all the blocks that it might, or was
  left with less than the smallest size, and that no whole number of granules.
* `Layout.cover_shortfall`: what a shortfall says about its image.
-/

namespace CodeGuard

variable {t : SizeTable} {n a e r left : Nat} {bs : List Block}

namespace SizeTable

def smallest (t : SizeTable) : Nat :=
  t.sizes.head t.sizes_ne_nil

/-- The least number of bytes that the table can tell apart. -/
def granule (t : SizeTable) : Nat :=
  t.subBlockSize t.smallest

theorem smallest_mem (t : SizeTable) : t.smallest ∈ t.sizes :=
  List.head_mem t.sizes_ne_nil

theorem smallest_le {s : Nat} (h : s ∈ t.sizes) : t.smallest ≤ s :=
  (t.ascending.imp Nat.le_of_lt).rel_head h

theorem smallest_dvd {s : Nat} (h : s ∈ t.sizes) : t.smallest ∣ s :=
  dvd_of_mem_of_le t.smallest_mem h (smallest_le h)

theorem subdivisions_mul_granule (t : SizeTable) : t.subdivisions * t.granule = t.smallest :=
  subdivisions_mul_subBlockSize t.smallest_mem

theorem granule_dvd_smallest (t : SizeTable) : t.granule ∣ t.smallest :=
  ⟨t.subdivisions, by rw [Nat.mul_comm, subdivisions_mul_granule]⟩

theorem granule_dvd_subBlockSize {s : Nat} (h : s ∈ t.sizes) : t.granule ∣ t.subBlockSize s :=
  subBlockSize_dvd_subBlockSize t.smallest_mem h (smallest_le h)

end SizeTable

theorem Tiles.granule_dvd (h : Tiles t a e bs) (ha : t.granule ∣ a) : t.granule ∣ e := by
  induction h with
  | nil => exact ha
  | whole hs _ _ ih =>
    exact ih (Nat.dvd_add ha (Nat.dvd_trans t.granule_dvd_smallest (SizeTable.smallest_dvd hs)))
  | lowest hs _ _ _ =>
    exact Nat.dvd_add ha (Nat.dvd_mul_left_of_dvd (SizeTable.granule_dvd_subBlockSize hs) _)

/-- A region of the smallest size ends any rest of fewer granules than it has. -/
theorem not_granule_dvd (ha : t.smallest ∣ a) (hr : 0 < r) (hlt : r < t.smallest)
    (hno : ∀ b, ¬ Tiles t a (a + r) [b]) : ¬ t.granule ∣ r := by
  rintro ⟨k, rfl⟩
  have hk : 1 ≤ k := Nat.pos_of_mul_pos_left hr
  have hkd : k < t.subdivisions := by
    rw [← t.subdivisions_mul_granule, Nat.mul_comm] at hlt
    exact Nat.lt_of_mul_lt_mul_right hlt
  refine hno (.lowest t a t.smallest k) ?_
  rw [Nat.mul_comm]
  exact .lowest t.smallest_mem (Nat.mod_eq_zero_of_dvd ha) hk hkd

namespace Layout

theorem Scans.shortage (h : Scans t n a r bs left) (ha : t.smallest ∣ a) (hleft : left ≠ 0) :
    t.smallest ∣ r - left ∧
      (bs.length = n ∨ left < t.smallest ∧ ¬ t.granule ∣ left) := by
  induction h with
  | ended => exact absurd rfl hleft
  | last => exact absurd rfl hleft
  | spent =>
    rw [Nat.sub_self]
    exact ⟨Nat.dvd_zero _, .inl rfl⟩
  | @stuck n a r hr _ hno hlt =>
    have hsmall : r < t.smallest := hlt _ t.smallest_mem (Nat.mod_eq_zero_of_dvd ha)
    rw [Nat.sub_self]
    exact ⟨Nat.dvd_zero _, .inr ⟨hsmall, not_granule_dvd ha hr hsmall hno⟩⟩
  | @step n a r s left rest _ _ _ hs hrest ih =>
    obtain ⟨hmem, -, hle, -⟩ := hs
    have hdvd := SizeTable.smallest_dvd hmem
    obtain ⟨htaken, hcause⟩ := ih (Nat.dvd_add ha hdvd) hleft
    have hleft' := hrest.left_le
    have htotal : r - left = s + (r - s - left) := by omega
    refine ⟨htotal ▸ Nat.dvd_add hdvd htaken, hcause.imp_left fun hlen => ?_⟩
    rw [List.length_cons, hlen]

/-- What a shortfall says about an image of `total` bytes that was to have `limit` blocks. -/
structure Explains (t : SizeTable) (total limit : Nat) (s : Shortfall) : Prop where
  remaining_pos : 0 < s.remaining
  remaining_le : s.remaining ≤ total
  slotsUsed_le : s.slotsUsed ≤ limit
  remaining_modEq : s.remaining ≡ total [MOD t.granule]
  cause : s.slotsUsed = limit ∨ s.remaining = total % t.smallest ∧ ¬ t.granule ∣ total

theorem explains_of_cover {total maxSlots : Nat} {s : Shortfall}
    (h : cover total maxSlots t = .error s) : Explains t total (min maxSlots 16) s := by
  obtain ⟨bs, hscan, hleft, hlen⟩ := cover_eq_error_iff.mp h
  have hle := hscan.left_le
  obtain ⟨htaken, hcause⟩ := hscan.shortage (Nat.dvd_zero _) hleft
  have hmod : s.remaining ≡ total [MOD t.smallest] := (Nat.modEq_iff_dvd' hle).mpr htaken
  have hmod' := hmod.of_dvd t.granule_dvd_smallest
  exact {
    remaining_pos := Nat.pos_of_ne_zero hleft
    remaining_le := hle
    slotsUsed_le := hlen ▸ hscan.length_le
    remaining_modEq := hmod'
    cause := by
      refine hcause.imp (hlen ▸ ·) fun ⟨hlt, hno⟩ => ⟨?_, fun hdvd => hno ?_⟩
      · rw [← hmod, Nat.mod_eq_of_lt hlt]
      · exact (hmod'.dvd_iff (Nat.dvd_refl _)).mpr hdvd }

/-- **A shortfall tells a small budget from an image that no budget can cover.** Only images of a
whole number of granules are ever covered; and where one of those is not, the scan has spent its
whole budget. -/
theorem cover_shortfall (t : SizeTable) (total maxSlots : Nat) :
    (¬ t.granule ∣ total → ∃ s, cover total maxSlots t = .error s) ∧
    ∀ s, cover total maxSlots t = .error s → Explains t total (min maxSlots 16) s ∧
      (t.granule ∣ total → s.slotsUsed = min maxSlots 16) := by
  constructor
  · intro hno
    cases h : cover total maxSlots t with
    | ok l => exact absurd ((tiles_of_cover h).1.granule_dvd (Nat.dvd_zero _)) hno
    | error s => exact ⟨s, rfl⟩
  · intro s h
    have hs := explains_of_cover h
    exact ⟨hs, fun hdvd => hs.cause.resolve_right fun hcause => hcause.2 hdvd⟩

/-- Of 3172 bytes, 100 are left after two of six blocks. -/
theorem cover_shortfall_reference :
    cover 3172 6 .reference = .error ⟨100, 2⟩ ∧ Explains .reference 3172 6 ⟨100, 2⟩ :=
  have h : cover 3172 6 .reference = .error ⟨100, 2⟩ := by rfl
  ⟨h, ((cover_shortfall .reference 3172 6).2 _ h).1⟩

end Layout
end CodeGuard
