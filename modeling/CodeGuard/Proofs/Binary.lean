import Mathlib.Data.Nat.BitIndices
import CodeGuard.Proofs.Refining
import CodeGuard.Proofs.Shortage

/-!
# CodeGuard.Proofs.Binary

The cut under a table of consecutive powers of two whose regions are used whole: as many regions of
the largest size as go into the image, then one for each binary digit of what is left.

* `SizeTable.Consecutive.mem_sizes`: every power of two from the smallest to the largest size is
  listed.
* `SizeTable.Consecutive.wholeSizes_cons`: so the largest size that fits is the next one of the
  closed form.
* `Layout.Scans.blocks_eq`: a scan takes the blocks of the closed form until its budget is spent.
* `Layout.cover_binary`: which images have a layout, and which one.
-/

namespace CodeGuard

/-! ## The closed form -/

/-- The powers of two that add up to `n`, one for each binary digit that is set, the largest
first. -/
def powers (n : Nat) : List Nat :=
  n.bitIndices.reverse.map (2 ^ ·)

/-- As many regions of the largest size as go into `total`, then its binary digits. -/
def wholeSizes (largest total : Nat) : List Nat :=
  List.replicate (total / largest) largest ++ powers (total % largest)

@[simp] theorem powers_zero : powers 0 = [] := by simp [powers]

theorem sum_powers (n : Nat) : (powers n).sum = n := by
  rw [powers, List.map_reverse, List.sum_reverse, Nat.sum_map_two_pow_bitIndices]

theorem powers_descend (n : Nat) : (powers n).Pairwise (· > ·) := by
  rw [powers, List.pairwise_map, List.pairwise_reverse]
  exact Nat.bitIndices_sorted.pairwise.imp fun h => Nat.pow_lt_pow_right (by decide) h

theorem bitIndices_add_two_pow {k m : Nat} (h : m < 2 ^ k) :
    (m + 2 ^ k).bitIndices = m.bitIndices ++ [k] := by
  have hsorted : (m.bitIndices ++ [k]).SortedLT := by
    rw [List.sortedLT_iff_pairwise, List.pairwise_append]
    refine ⟨Nat.bitIndices_sorted.pairwise, List.pairwise_singleton _ _, fun i hi j hj => ?_⟩
    rw [List.mem_singleton.mp hj]
    exact (Nat.pow_lt_pow_iff_right (by decide)).mp
      (Nat.lt_of_le_of_lt (Nat.two_pow_le_of_mem_bitIndices hi) h)
  have hsum := Nat.bitIndices_sum_map_two_pow hsorted
  rwa [List.map_append, List.sum_append, Nat.sum_map_two_pow_bitIndices, List.map_singleton,
    List.sum_singleton] at hsum

theorem powers_cons {n : Nat} (h : n ≠ 0) :
    powers n = 2 ^ n.log2 :: powers (n - 2 ^ n.log2) := by
  have hle := Nat.log2_self_le h
  have hlt : n < 2 ^ (n.log2 + 1) := Nat.lt_log2_self
  rw [Nat.pow_succ] at hlt
  have hbits := bitIndices_add_two_pow (show n - 2 ^ n.log2 < 2 ^ n.log2 by omega)
  rw [Nat.sub_add_cancel hle] at hbits
  rw [powers, hbits, List.reverse_append, List.reverse_singleton, List.singleton_append,
    List.map_cons, ← powers]

theorem sum_wholeSizes (largest total : Nat) : (wholeSizes largest total).sum = total := by
  rw [wholeSizes, List.sum_append, List.sum_replicate_nat, sum_powers]
  exact Nat.div_add_mod' total largest

@[simp] theorem wholeSizes_zero (largest : Nat) : wholeSizes largest 0 = [] := by
  simp [wholeSizes]

theorem wholeSizes_eq_nil_iff {largest total : Nat} :
    wholeSizes largest total = [] ↔ total = 0 := by
  constructor
  · intro h
    rw [← sum_wholeSizes largest total, h, List.sum_nil]
  · rintro rfl
    exact wholeSizes_zero largest

theorem wholeSizes_of_le {largest total : Nat} (hpos : 0 < largest) (h : largest ≤ total) :
    wholeSizes largest total = largest :: wholeSizes largest (total - largest) := by
  rw [wholeSizes, Nat.div_eq_sub_div hpos h, Nat.mod_eq_sub_mod h, List.replicate_succ,
    List.cons_append, ← wholeSizes]

theorem wholeSizes_of_lt {largest total : Nat} (h : total < largest) :
    wholeSizes largest total = powers total := by
  rw [wholeSizes, Nat.div_eq_of_lt h, Nat.mod_eq_of_lt h, List.replicate_zero, List.nil_append]

namespace Block

/-- Whole regions of the given sizes, each where the one before it ends. -/
def row : Nat → List Nat → List Block
  | _, [] => []
  | a, s :: rest => whole a s :: row (a + s) rest

@[simp] theorem length_row (a : Nat) (sizes : List Nat) : (row a sizes).length = sizes.length := by
  induction sizes generalizing a with
  | nil => rfl
  | cons s rest ih => rw [row, List.length_cons, ih, List.length_cons]

end Block

/-! ## Tables of consecutive sizes -/

/-- In a list whose entries double, no power of two is left out between the first and the last. -/
theorem mem_of_isChain_double {x : Nat} (hx : x.isPowerOfTwo) {first : Nat} {rest : List Nat}
    (hfirst : first.isPowerOfTwo) (hchain : (first :: rest).IsChain fun s s' => s' = 2 * s)
    (hlo : first ≤ x) (hhi : x ≤ rest.getLastD first) : x ∈ first :: rest := by
  induction rest generalizing first with
  | nil =>
    rw [List.getLastD_nil] at hhi
    exact List.mem_singleton.mpr (Nat.le_antisymm hhi hlo)
  | cons second rest ih =>
    obtain ⟨rfl, hchain⟩ := List.isChain_cons_cons.mp hchain
    rcases Nat.eq_or_lt_of_le hlo with rfl | hlt
    · exact List.mem_cons_self
    -- a power of two above `first` is at least twice as large
    obtain ⟨i, rfl⟩ := hfirst
    obtain ⟨j, rfl⟩ := hx
    have hij : i + 1 ≤ j := (Nat.pow_lt_pow_iff_right (by decide)).mp hlt
    have hsecond : 2 * 2 ^ i = 2 ^ (i + 1) := by rw [Nat.pow_succ, Nat.mul_comm]
    rw [List.getLastD_cons] at hhi
    refine List.mem_cons_of_mem _ (ih ⟨i + 1, hsecond⟩ hchain ?_ hhi)
    rw [hsecond]
    exact Nat.pow_le_pow_right (by decide) hij

namespace SizeTable

variable {t : SizeTable} {a r s : Nat}

theorem largest_eq_getLast (t : SizeTable) : t.largest = t.sizes.getLast t.sizes_ne_nil := by
  rw [largest, List.getLastD_eq_getLast?, List.getLast?_eq_some_getLast t.sizes_ne_nil,
    Option.getD_some]

theorem largest_mem (t : SizeTable) : t.largest ∈ t.sizes :=
  t.largest_eq_getLast ▸ List.getLast_mem t.sizes_ne_nil

theorem le_largest (h : s ∈ t.sizes) : s ≤ t.largest :=
  t.largest_eq_getLast ▸ (t.ascending.imp Nat.le_of_lt).rel_getLast h

/-- Each size is twice the one before it. -/
def Consecutive (t : SizeTable) : Prop :=
  t.sizes.IsChain fun s s' => s' = 2 * s

namespace Consecutive

theorem mem_sizes (h : t.Consecutive) (hs : s.isPowerOfTwo) (hlo : t.smallest ≤ s)
    (hhi : s ≤ t.largest) : s ∈ t.sizes := by
  obtain ⟨first, rest, hsizes⟩ := List.exists_cons_of_ne_nil t.sizes_ne_nil
  have hfirst : t.smallest = first := by simp [smallest, hsizes]
  have hlast : t.largest = rest.getLastD first := by rw [largest, hsizes, List.getLastD_cons]
  have hpow := hfirst ▸ isPowerOfTwo_of_mem t.smallest_mem
  rw [Consecutive, hsizes] at h
  rw [hsizes]
  exact mem_of_isChain_double hs hpow h (hfirst ▸ hlo) (hlast ▸ hhi)

/-- Where the alignment does not matter, the largest size that fits is the largest of all, or the
highest binary digit of the rest. -/
theorem wholeSizes_cons (h : t.Consecutive) (hfree : t.Unhindered a r)
    (hr : t.smallest ≤ r) (hs : t.IsLargestFit a r s) :
    wholeSizes t.largest r = s :: wholeSizes t.largest (r - s) := by
  obtain ⟨hmem, -, hle, hmax⟩ := hs
  have hfits : ∀ s' ∈ t.sizes, s' ≤ r → s' ≤ s := fun s' hs' hle' =>
    hmax s' hs' (hfree s' hs' hle') hle'
  rcases Nat.lt_or_ge r t.largest with hsmall | hlarge
  · have hr0 : r ≠ 0 := by
      have := pos_of_mem hmem
      omega
    have hlow := Nat.log2_self_le hr0
    have hbelow : ∀ {x : Nat}, x.isPowerOfTwo → x ≤ r → x ≤ 2 ^ r.log2 := by
      rintro x ⟨i, rfl⟩ hx
      exact Nat.pow_le_pow_right (by decide) ((Nat.le_log2 hr0).mpr hx)
    have hdigit : 2 ^ r.log2 ∈ t.sizes :=
      h.mem_sizes ⟨_, rfl⟩ (hbelow (isPowerOfTwo_of_mem t.smallest_mem) hr) (by omega)
    have heq : s = 2 ^ r.log2 :=
      Nat.le_antisymm (hbelow (isPowerOfTwo_of_mem hmem) hle) (hfits _ hdigit hlow)
    rw [wholeSizes_of_lt hsmall, wholeSizes_of_lt (by omega), heq]
    exact powers_cons hr0
  · have heq : s = t.largest :=
      Nat.le_antisymm (le_largest hmem) (hfits _ t.largest_mem hlarge)
    rw [heq]
    exact wholeSizes_of_le (pos_of_mem t.largest_mem) hlarge

end Consecutive

/-- There are as many sizes as the number of largest regions and the binary digits of the rest,
counted in smallest regions. -/
theorem length_wholeSizes {total : Nat} (hdvd : t.smallest ∣ total) :
    (wholeSizes t.largest total).length =
      total / t.largest + (total % t.largest / t.smallest).bitIndices.length := by
  have hrest : t.smallest ∣ total % t.largest :=
    (Nat.dvd_mod_iff (smallest_dvd t.largest_mem)).mpr hdvd
  obtain ⟨i, hi⟩ := isPowerOfTwo_of_mem t.smallest_mem
  have hbits : (total % t.largest).bitIndices.length =
      (total % t.largest / t.smallest).bitIndices.length := by
    rw [hi] at hrest ⊢
    nth_rewrite 1 [← Nat.mul_div_cancel' hrest]
    rw [Nat.bitIndices_two_pow_mul, List.length_map]
  rw [wholeSizes, List.length_append, List.length_replicate, powers, List.length_map,
    List.length_reverse, hbits]

end SizeTable

/-! ## The scan -/

namespace Layout

variable {t : SizeTable} {n a r left total maxSlots : Nat} {bs : List Block}

/-- A scan takes the blocks of the closed form, and leaves nothing if it may take them all. -/
theorem Scans.blocks_eq (hd : t.subdivisions = 1) (hc : t.Consecutive)
    (h : Scans t n a r bs left) (hfree : t.Unhindered a r) (hdvd : t.smallest ∣ r) :
    bs = (Block.row a (wholeSizes t.largest r)).take n ∧
      (left = 0 ↔ (wholeSizes t.largest r).length ≤ n) := by
  induction h with
  | ended =>
    rw [wholeSizes_zero]
    exact ⟨List.take_nil.symm, fun _ => Nat.zero_le _, fun _ => rfl⟩
  | spent =>
    rw [Nat.le_zero, List.length_eq_zero_iff, wholeSizes_eq_nil_iff]
    exact ⟨List.take_zero.symm, Iff.rfl⟩
  | stuck hr _ _ hlt =>
    have hsmall := Nat.le_of_dvd hr hdvd
    have := hlt _ t.smallest_mem (hfree _ t.smallest_mem hsmall)
    omega
  | @last n a r b hr _ hend =>
    obtain ⟨hmem, halign, ⟨hsize, hwhole⟩ | ⟨k, hk, hkd, -⟩⟩ := Tiles.singleton_iff.mp hend
    · rw [← hsize] at hmem halign hwhole
      have hs : t.IsLargestFit a r r := ⟨hmem, halign, Nat.le_refl r, fun _ _ _ hle => hle⟩
      rw [hc.wholeSizes_cons hfree (Nat.le_of_dvd hr hdvd) hs, Nat.sub_self, wholeSizes_zero,
        hwhole, Block.row, Block.row, List.take_succ_cons, List.take_nil]
      exact ⟨rfl, fun _ => Nat.le_add_left 1 n, fun _ => rfl⟩
    · omega
  | @step n a r s left rest hr _ _ hs _ ih =>
    obtain ⟨hrest, hleft⟩ := ih (hfree.step hs) (Nat.dvd_sub hdvd (SizeTable.smallest_dvd hs.1))
    rw [hc.wholeSizes_cons hfree (Nat.le_of_dvd hr hdvd) hs, Block.row, List.take_succ_cons,
      ← hrest, List.length_cons, Nat.succ_le_succ_iff]
    exact ⟨rfl, hleft⟩

/-- **The cut into whole regions is the binary form of the image.** A table of consecutive sizes
covers the images of a whole number of its smallest regions, as far as the budget lasts for the
largest regions that go into them and the binary digits of the rest; and those are the blocks. -/
theorem cover_binary (hd : t.subdivisions = 1) (hc : t.Consecutive) (total maxSlots : Nat) :
    ((∃ l, cover total maxSlots t = .ok l) ↔
      t.smallest ∣ total ∧
        total / t.largest + (total % t.largest / t.smallest).bitIndices.length ≤ min maxSlots 16) ∧
    ∀ l, cover total maxSlots t = .ok l →
      l.blocks = Block.row 0
        (List.replicate (total / t.largest) t.largest ++ powers (total % t.largest)) ∧
      (powers (total % t.largest)).Pairwise (· > ·) := by
  have hgranule : t.granule = t.smallest := by
    rw [← t.subdivisions_mul_granule, hd, Nat.one_mul]
  have hfree : t.Unhindered 0 total := fun s _ _ => Nat.zero_mod s
  have hdvd : ∀ {l}, cover total maxSlots t = .ok l → t.smallest ∣ total := fun hl =>
    hgranule ▸ (tiles_of_cover hl).1.granule_dvd (Nat.dvd_zero _)
  refine ⟨⟨?_, ?_⟩, fun l hl => ?_⟩
  · rintro ⟨l, hl⟩
    have hlen := ((cover_eq_ok_iff.mp hl).blocks_eq hd hc hfree (hdvd hl)).2.mp rfl
    rw [SizeTable.length_wholeSizes (hdvd hl)] at hlen
    exact ⟨hdvd hl, hlen⟩
  · rintro ⟨hwhole, hlen⟩
    rw [← SizeTable.length_wholeSizes hwhole] at hlen
    have hleft := ((scans_coverFrom t _ 0 total).blocks_eq hd hc hfree hwhole).2.mpr hlen
    exact ⟨⟨_⟩, cover_eq_ok_iff.mpr (hleft ▸ scans_coverFrom t _ 0 total)⟩
  · obtain ⟨hblocks, hlen⟩ := (cover_eq_ok_iff.mp hl).blocks_eq hd hc hfree (hdvd hl)
    refine ⟨?_, powers_descend _⟩
    rw [hblocks, ← wholeSizes]
    exact List.take_of_length_le (by rw [Block.length_row]; exact hlen.mp rfl)

/-- 300 KB are one region of 256 KB, and regions of 32 KB, 8 KB and 4 KB for the digits of 44 KB. -/
theorem cover_binary_reference :
    SizeTable.reference.undivided.Consecutive ∧
      cover 0x4B000 4 SizeTable.reference.undivided =
        .ok ⟨Block.row 0 [0x40000, 0x8000, 0x2000, 0x1000]⟩ ∧
      0x4B000 / 0x40000 + (0x4B000 % 0x40000 / 0x400).bitIndices.length ≤ 4 ∧
      Block.row 0 [0x40000, 0x8000, 0x2000, 0x1000] =
        Block.row 0 (.replicate (0x4B000 / 0x40000) 0x40000 ++ powers (0x4B000 % 0x40000)) :=
  have hc : SizeTable.reference.undivided.Consecutive := by
    unfold SizeTable.Consecutive
    decide
  have h : cover 0x4B000 4 SizeTable.reference.undivided =
    .ok ⟨Block.row 0 [0x40000, 0x8000, 0x2000, 0x1000]⟩ := by rfl
  ⟨hc, h, ((cover_binary rfl hc 0x4B000 4).1.mp ⟨_, h⟩).2,
    ((cover_binary rfl hc 0x4B000 4).2 _ h).1⟩

end Layout
end CodeGuard
