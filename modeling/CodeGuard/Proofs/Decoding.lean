import CodeGuard.Descriptor
import CodeGuard.Slot

/-!
# CodeGuard.Proofs.Decoding

What the unit makes of the words of a slot.

* `BaseWord.toNat_ofAddress`: a base word is the address rounded down to 32 bytes.
* `Slot.read_attributesWord`: a field of the attributes word reads back what was placed in it.
* `Slot.Placed.reaches_descriptor`, `Slot.Placed.covers_descriptor`: the region reaches the
  addresses that the slot holds, and no others, and covers them if it is on.
-/

namespace CodeGuard

namespace BaseWord

theorem toNat_ofAddress (a : UInt32) : (ofAddress a).toNat = a.toNat / 32 * 32 := by
  have ha := a.toNat_lt
  apply Nat.eq_of_testBit_eq
  intro i
  have hmask : (0xFFFFFFE0 : Nat) = (2 ^ 27 - 1) <<< 5 := rfl
  have hdown : a.toNat / 32 * 32 = (a.toNat >>> 5) <<< 5 := by
    rw [Nat.shiftRight_eq_div_pow, Nat.shiftLeft_eq]
  rw [ofAddress, addressMask, UInt32.toNat_and, hdown]
  show (a.toNat &&& 0xFFFFFFE0).testBit i = _
  rw [hmask, Nat.testBit_and, Nat.testBit_shiftLeft, Nat.testBit_two_pow_sub_one,
    Nat.testBit_shiftLeft, Nat.testBit_shiftRight]
  by_cases h5 : 5 ≤ i
  · rw [Nat.add_sub_cancel' h5]
    by_cases h32 : i < 32
    · simp [h5, show i - 5 < 27 by omega]
    · -- past the width of the word there is no bit
      have hpow := Nat.pow_le_pow_right (n := 2) (by decide) (Nat.not_lt.mp h32)
      simp [Nat.testBit_lt_two_pow (Nat.lt_of_lt_of_le ha hpow)]
  · simp [h5]

@[simp] theorem ofAddress_ofAddress (a : UInt32) : ofAddress (ofAddress a) = ofAddress a := by
  rw [ofAddress, ofAddress, UInt32.and_assoc, UInt32.and_self]

end BaseWord

/-! ## The disable mask -/

theorem disableMask_lt (e : Nat) : disableMask e < 256 := by
  unfold disableMask
  split
  · decide
  · exact Nat.mod_lt _ (by decide)

/-- The mask takes out the eighths from `e` up. -/
theorem testBit_disableMask : ∀ e < 8, ∀ j < 8,
    (disableMask e).testBit j = decide (1 ≤ e ∧ e ≤ j) := by
  decide

/-- `x` lies in the region, in a part that the mask leaves in. Whether the region is on is another
matter. -/
def Descriptor.Reaches (d : Descriptor) (x : Nat) : Prop :=
  (d.start ≤ x ∧ x < d.start + d.bytes) ∧ d.masked x = false

theorem Descriptor.covers_iff {d : Descriptor} {x : Nat} :
    d.covers x = true ↔ d.enabled = true ∧ d.Reaches x := by
  simp [covers, Reaches, and_assoc]

namespace Slot

def descriptor (s : Slot) : Descriptor :=
  ⟨s.baseWord, s.attributesWord⟩

def Holds (s : Slot) (x : Nat) : Prop :=
  s.base.toNat ≤ x ∧ x < s.base.toNat + s.consumed

instance (s : Slot) (x : Nat) : Decidable (s.Holds x) := by
  unfold Holds
  infer_instance

/-- The unit reads the slot as it is meant: it does not move the base, and looks at the mask if
there is one. -/
structure Placed (s : Slot) : Prop where
  aligned : s.size.bytes ∣ s.base.toNat
  eighths : s.eighths = 0 ∨ 1 ≤ s.eighths ∧ s.eighths ≤ 7 ∧ 256 ≤ s.size.bytes

/-! ## Fields of the attributes word -/

section Fields

variable (s : Slot)

open BitField

/-- What is placed in the attributes word, field by field. -/
def placements : List (BitField × Nat) :=
  [(AttributesWord.permission, s.permission.code),
    (AttributesWord.typeExtension, s.memory.typeExtension),
    (AttributesWord.cacheable, s.memory.cacheable.toNat),
    (AttributesWord.bufferable, s.memory.bufferable.toNat),
    (AttributesWord.shareable, s.memory.shareable.toNat),
    (AttributesWord.executeNever, (!s.executable).toNat),
    (AttributesWord.disabledEighths, disableMask s.eighths),
    (AttributesWord.size, s.size.code),
    (AttributesWord.enable, s.enabled.toNat)]

/-- No field has a bit of another, so each reads back what was placed in it. -/
theorem read_attributesWord {f : BitField} {n : Nat} (h : (f, n) ∈ s.placements) :
    f.read s.attributesWord = n % (1 <<< f.width) := by
  simp only [placements, List.mem_cons, Prod.mk.injEq, List.not_mem_nil, or_false] at h
  rcases h with ⟨rfl, rfl⟩ | ⟨rfl, rfl⟩ | ⟨rfl, rfl⟩ | ⟨rfl, rfl⟩ | ⟨rfl, rfl⟩ | ⟨rfl, rfl⟩ |
    ⟨rfl, rfl⟩ | ⟨rfl, rfl⟩ | ⟨rfl, rfl⟩ <;>
  simp (disch := decide) only [attributesWord, read_or, read_place, read_place_of_disjoint,
    Nat.zero_or, Nat.or_zero]

theorem isSet_attributesWord {f : BitField} (hf : f.width = 1) {b : Bool}
    (h : (f, b.toNat) ∈ s.placements) : f.isSet s.attributesWord = b := by
  rw [isSet, s.read_attributesWord h, hf]
  cases b <;> rfl

@[simp] theorem read_size_attributesWord :
    AttributesWord.size.read s.attributesWord = s.size.code := by
  have hlt := Nat.lt_of_le_of_lt s.size.code_le_thirty (show 30 < 2 ^ 5 by decide)
  rw [s.read_attributesWord (n := s.size.code) (by simp [placements])]
  exact Nat.mod_eq_of_lt hlt

@[simp] theorem read_disabledEighths_attributesWord :
    AttributesWord.disabledEighths.read s.attributesWord = disableMask s.eighths := by
  rw [s.read_attributesWord (n := disableMask s.eighths) (by simp [placements])]
  exact Nat.mod_eq_of_lt (disableMask_lt s.eighths)

@[simp] theorem read_permission_attributesWord :
    AttributesWord.permission.read s.attributesWord = s.permission.code := by
  rw [s.read_attributesWord (n := s.permission.code) (by simp [placements])]
  cases s.permission <;> rfl

@[simp] theorem read_typeExtension_attributesWord :
    AttributesWord.typeExtension.read s.attributesWord = s.memory.typeExtension % 8 :=
  s.read_attributesWord (by simp [placements])

@[simp] theorem isSet_cacheable_attributesWord :
    AttributesWord.cacheable.isSet s.attributesWord = s.memory.cacheable :=
  s.isSet_attributesWord rfl (by simp [placements])

@[simp] theorem isSet_bufferable_attributesWord :
    AttributesWord.bufferable.isSet s.attributesWord = s.memory.bufferable :=
  s.isSet_attributesWord rfl (by simp [placements])

@[simp] theorem isSet_shareable_attributesWord :
    AttributesWord.shareable.isSet s.attributesWord = s.memory.shareable :=
  s.isSet_attributesWord rfl (by simp [placements])

@[simp] theorem isSet_executeNever_attributesWord :
    AttributesWord.executeNever.isSet s.attributesWord = !s.executable :=
  s.isSet_attributesWord rfl (by simp [placements])

@[simp] theorem isSet_enable_attributesWord :
    AttributesWord.enable.isSet s.attributesWord = s.enabled :=
  s.isSet_attributesWord rfl (by simp [placements])

end Fields

/-! ## Coverage -/

variable {s : Slot}

@[simp] theorem bytes_descriptor : s.descriptor.bytes = s.size.bytes := by
  simp [Descriptor.bytes, descriptor, AttributesWord.bytes, RegionSize.bytes]

theorem Placed.start_descriptor (h : s.Placed) : s.descriptor.start = s.base.toNat := by
  have h32 := Nat.dvd_trans (s.size.thirtyTwo_dvd_bytes) h.aligned
  rw [Descriptor.start, bytes_descriptor, descriptor, baseWord, BaseWord.ofAddress_ofAddress,
    BaseWord.toNat_ofAddress, Nat.div_mul_cancel h32, Nat.div_mul_cancel h.aligned]

/-- Within the region, the mask takes out what the slot does not cover. -/
theorem Placed.masked_descriptor (h : s.Placed) {x : Nat} (hlo : s.base.toNat ≤ x)
    (hhi : x < s.base.toNat + s.size.bytes) :
    s.descriptor.masked x = decide (s.base.toNat + s.consumed ≤ x) := by
  have hmask : AttributesWord.disabledEighths.read s.descriptor.attributes =
      disableMask s.eighths := s.read_disabledEighths_attributesWord
  rw [Descriptor.masked, bytes_descriptor, hmask, h.start_descriptor]
  rcases h.eighths with he | ⟨h1, h7, hbig⟩
  · rw [consumed, he, if_pos rfl]
    simp [disableMask]
    omega
  · have h8 : 8 ∣ s.size.bytes := Nat.dvd_trans (by decide) s.size.thirtyTwo_dvd_bytes
    have hunit : 0 < s.size.bytes / 8 := by omega
    have hj : (x - s.base.toNat) / (s.size.bytes / 8) < 8 := by
      rw [Nat.div_lt_iff_lt_mul hunit, Nat.mul_div_cancel' h8]
      omega
    have hcut : s.consumed = s.eighths * (s.size.bytes / 8) := by
      rw [consumed, if_neg (by omega), Nat.mul_comm]
    rw [testBit_disableMask _ (by omega) _ hj, hcut]
    simp only [hbig, h1, decide_true, Bool.true_and, true_and, Nat.le_div_iff_mul_le hunit]
    exact decide_eq_decide.mpr (by omega)

theorem Placed.consumed_le (h : s.Placed) : s.consumed ≤ s.size.bytes := by
  rw [consumed]
  split
  · exact Nat.le_refl _
  · rcases h.eighths with he | ⟨_, h7, _⟩
    · omega
    · calc
        _ ≤ s.size.bytes / 8 * 8 := Nat.mul_le_mul_left _ (by omega)
        _ ≤ _ := Nat.div_mul_le_self _ _

theorem Placed.reaches_descriptor (h : s.Placed) (x : Nat) :
    s.descriptor.Reaches x ↔ s.Holds x := by
  have hfit := h.consumed_le
  rw [Descriptor.Reaches, bytes_descriptor, h.start_descriptor, Holds]
  by_cases hin : s.base.toNat ≤ x ∧ x < s.base.toNat + s.size.bytes
  · rw [h.masked_descriptor hin.1 hin.2]
    simp [hin]
  · simp [hin]
    omega

theorem Placed.covers_descriptor_iff (h : s.Placed) (x : Nat) :
    s.descriptor.covers x = true ↔ s.enabled = true ∧ s.Holds x := by
  rw [Descriptor.covers_iff, h.reaches_descriptor, Descriptor.enabled, descriptor,
    isSet_enable_attributesWord]

theorem Placed.covers_descriptor (h : s.Placed) (hon : s.enabled = true) (x : Nat) :
    s.descriptor.covers x = true ↔ s.Holds x :=
  (h.covers_descriptor_iff x).trans (and_iff_right hon)

end Slot
end CodeGuard
