import CodeGuard.Proofs.Decoding

/-!
# CodeGuard.Proofs.Encoding

What the two words of a slot say of it.

* `Slot.Encoded`: words that say all of a slot, field by field, and set no other bit.
* `Slot.Encoded.unique`: two plain slots with the same words differ in their number alone.
* `Slot.words_encode`: the words of a slot say all of it, tell it from every other slot, and leave
  exactly the addresses that it holds.
-/

namespace CodeGuard

/-! ## Bits of a placed field -/

namespace BitField

/-- Bit `k` of a word is one of the field's. -/
def Has (f : BitField) (k : Nat) : Prop :=
  f.offset ≤ k ∧ k < f.offset + f.width

theorem has_of_testBit_place {f : BitField} (h : f.offset + f.width ≤ 32) {n k : Nat}
    (hk : (f.place n).toNat.testBit k = true) : f.Has k := by
  rw [testBit_place h] at hk
  simp only [Bool.and_eq_true, decide_eq_true_eq] at hk
  exact ⟨hk.1, by omega⟩

end BitField

namespace AttributesWord

def fields : List BitField :=
  [executeNever, permission, typeExtension, shareable, cacheable, bufferable, disabledEighths, size,
    enable]

theorem end_le_of_mem_fields : ∀ f ∈ fields, f.offset + f.width ≤ 32 := by
  decide

end AttributesWord

/-! ## Slots and words -/

theorem Permission.code_injective {p q : Permission} (h : p.code = q.code) : p = q := by
  cases p <;> cases q <;> first | rfl | cases h

theorem disableMask_injective : ∀ e < 8, ∀ e' < 8, disableMask e = disableMask e' → e = e' := by
  decide

theorem testBit_disableMask_iff (e j : Nat) :
    (disableMask e).testBit j = true ↔ (1 ≤ e ∧ e ≤ 7) ∧ e ≤ j ∧ j ≤ 7 := by
  by_cases he : e < 8
  · by_cases hj : j < 8
    · rw [testBit_disableMask e he j hj, decide_eq_true_eq]
      omega
    · have hpow := Nat.pow_le_pow_right (n := 2) (by decide) (Nat.not_lt.mp hj)
      rw [Nat.testBit_lt_two_pow (Nat.lt_of_lt_of_le (disableMask_lt e) hpow)]
      simp only [Bool.false_eq_true, false_iff]
      omega
  · rw [disableMask, if_pos (.inr (Nat.not_lt.mp he)), Nat.zero_testBit]
    simp only [Bool.false_eq_true, false_iff]
    omega

namespace Slot

/-- The words say all of the slot that a field has room for, and set no bit outside the fields. -/
structure Encoded (s : Slot) (base attributes : UInt32) : Prop where
  permission : AttributesWord.permission.read attributes = s.permission.code
  typeExtension : AttributesWord.typeExtension.read attributes = s.memory.typeExtension % 8
  cacheable : AttributesWord.cacheable.isSet attributes = s.memory.cacheable
  bufferable : AttributesWord.bufferable.isSet attributes = s.memory.bufferable
  shareable : AttributesWord.shareable.isSet attributes = s.memory.shareable
  executeNever : AttributesWord.executeNever.isSet attributes = !s.executable
  size : AttributesWord.size.read attributes = s.size.code
  enable : AttributesWord.enable.isSet attributes = s.enabled
  disabledEighths : ∀ j, (AttributesWord.disabledEighths.read attributes).testBit j = true ↔
    (1 ≤ s.eighths ∧ s.eighths ≤ 7) ∧ s.eighths ≤ j ∧ j ≤ 7
  unused : ∀ k, attributes.toNat.testBit k = true → ∃ f ∈ AttributesWord.fields, f.Has k
  valid : BaseWord.valid.read base = 0
  region : BaseWord.region.read base = 0
  address : base.toNat = s.base.toNat / 32 * 32

/-- Nothing of the slot is cut off in its words. -/
structure Plain (s : Slot) : Prop where
  typeExtension_lt : s.memory.typeExtension < 8
  eighths_le : s.eighths ≤ 7
  aligned : 32 ∣ s.base.toNat

variable {s t : Slot}

theorem has_of_testBit_attributesWord (s : Slot) {k : Nat}
    (hk : s.attributesWord.toNat.testBit k = true) : ∃ f ∈ AttributesWord.fields, f.Has k := by
  -- one of the placed fields has the bit
  have hplaced : ∃ f ∈ AttributesWord.fields, ∃ n, (f.place n).toNat.testBit k = true := by
    simp only [attributesWord, UInt32.toNat_or, Nat.testBit_or, Bool.or_eq_true] at hk
    rcases hk with (((((((hk | hk) | hk) | hk) | hk) | hk) | hk) | hk) | hk <;>
      exact ⟨_, by simp [AttributesWord.fields], _, hk⟩
  obtain ⟨f, hf, n, hn⟩ := hplaced
  exact ⟨f, hf, BitField.has_of_testBit_place (AttributesWord.end_le_of_mem_fields f hf) hn⟩

theorem read_baseWord_of_low {f : BitField} (hf : f.offset + f.width ≤ 5) (s : Slot) :
    f.read s.baseWord = 0 := by
  apply Nat.eq_of_testBit_eq
  intro i
  have hdown : s.baseWord.toNat = (s.base.toNat / 32) <<< 5 := by
    rw [baseWord, BaseWord.toNat_ofAddress, Nat.shiftLeft_eq]
  rw [BitField.testBit_read, hdown, Nat.testBit_shiftLeft, Nat.zero_testBit]
  by_cases hi : i < f.width
  · simp [show ¬ 5 ≤ f.offset + i by omega]
  · simp [hi]

theorem encoded (s : Slot) : s.Encoded s.baseWord s.attributesWord where
  permission := s.read_permission_attributesWord
  typeExtension := s.read_typeExtension_attributesWord
  cacheable := s.isSet_cacheable_attributesWord
  bufferable := s.isSet_bufferable_attributesWord
  shareable := s.isSet_shareable_attributesWord
  executeNever := s.isSet_executeNever_attributesWord
  size := s.read_size_attributesWord
  enable := s.isSet_enable_attributesWord
  disabledEighths := fun j => by
    rw [read_disabledEighths_attributesWord, testBit_disableMask_iff]
  unused := fun _ hk => s.has_of_testBit_attributesWord hk
  valid := s.read_baseWord_of_low (by decide)
  region := s.read_baseWord_of_low (by decide)
  address := BaseWord.toNat_ofAddress s.base

/-- Words leave no choice but the number. -/
theorem Encoded.unique {base attributes : UInt32} (hs : s.Encoded base attributes)
    (ht : t.Encoded base attributes) (hplain : s.Plain) (hplain' : t.Plain) :
    s = { t with id := s.id } := by
  have hbase : s.base = t.base := by
    rw [← UInt32.toNat_inj, ← Nat.div_mul_cancel hplain.aligned, ← hs.address, ht.address,
      Nat.div_mul_cancel hplain'.aligned]
  have hsize : s.size = t.size := by
    have hcode := hs.size.symm.trans ht.size
    cases hss : s.size
    cases hts : t.size
    rw [hss, hts] at hcode
    cases hcode
    rfl
  have hmask : disableMask s.eighths = disableMask t.eighths := by
    apply Nat.eq_of_testBit_eq
    intro j
    rw [Bool.eq_iff_iff, testBit_disableMask_iff, testBit_disableMask_iff, ← hs.disabledEighths,
      ht.disabledEighths]
  have heighths : s.eighths = t.eighths :=
    disableMask_injective _ (Nat.lt_succ_of_le hplain.eighths_le) _
      (Nat.lt_succ_of_le hplain'.eighths_le) hmask
  have hpermission := Permission.code_injective (hs.permission.symm.trans ht.permission)
  have hexecutable : s.executable = t.executable :=
    Bool.not_inj (hs.executeNever.symm.trans ht.executeNever)
  have hmemory : s.memory = t.memory := by
    have htype := hs.typeExtension.symm.trans ht.typeExtension
    rw [Nat.mod_eq_of_lt hplain.typeExtension_lt, Nat.mod_eq_of_lt hplain'.typeExtension_lt]
      at htype
    rw [MemoryType.mk.injEq]
    exact ⟨htype, hs.cacheable.symm.trans ht.cacheable, hs.bufferable.symm.trans ht.bufferable,
      hs.shareable.symm.trans ht.shareable⟩
  have henabled := hs.enable.symm.trans ht.enable
  rw [Slot.mk.injEq]
  exact ⟨rfl, hbase, hsize, heighths, hpermission, hexecutable, hmemory, henabled⟩

theorem words_eq_iff (hs : s.Plain) (ht : t.Plain) :
    s.baseWord = t.baseWord ∧ s.attributesWord = t.attributesWord ↔ s = { t with id := s.id } := by
  constructor
  · rintro ⟨hbase, hattributes⟩
    have henc := t.encoded
    rw [← hbase, ← hattributes] at henc
    exact s.encoded.unique henc hs ht
  · intro h
    -- no word depends on the number
    rw [h]
    exact ⟨rfl, rfl⟩

theorem Plain.placed (h : s.Plain) (hsize : 256 ≤ s.size.bytes)
    (haligned : s.size.bytes ∣ s.base.toNat) : s.Placed where
  aligned := haligned
  eighths := by
    have := h.eighths_le
    omega

/-- **The two words say all of a slot.** Each field reads back what the slot has, and no other bit
is set. So two slots of which nothing is cut off have the same words only if they agree on all but
the number; and of such a slot, if its region has eighths and a base that the unit does not move,
the words leave in exactly the addresses that the slot holds, and the unit acts on them if the slot
is enabled. -/
theorem words_encode :
    (∀ s : Slot, s.Encoded s.baseWord s.attributesWord) ∧
    (∀ s t : Slot, s.Plain → t.Plain →
      (s.baseWord = t.baseWord ∧ s.attributesWord = t.attributesWord ↔ s = { t with id := s.id })) ∧
    ∀ s : Slot, s.Plain → 256 ≤ s.size.bytes → s.size.bytes ∣ s.base.toNat → ∀ x : Nat,
      ((Descriptor.mk s.baseWord s.attributesWord).Reaches x ↔
        s.base.toNat ≤ x ∧ x < s.base.toNat + s.consumed) ∧
      ((Descriptor.mk s.baseWord s.attributesWord).covers x = true ↔
        s.enabled = true ∧ s.base.toNat ≤ x ∧ x < s.base.toNat + s.consumed) := by
  refine ⟨encoded, fun _ _ => words_eq_iff, fun s hplain hsize haligned x => ?_⟩
  have hplaced := hplain.placed hsize haligned
  exact ⟨hplaced.reaches_descriptor x, hplaced.covers_descriptor_iff x⟩

/-- Five and four eighths of 64 KB, with a type extension that fills its field. The words differ,
and those of the first end at its fifth eighth. -/
theorem words_encode_fiveEighths :
    ∃ s t : Slot, s.Plain ∧ t.Plain ∧ s.eighths = 5 ∧ t = { s with eighths := 4 } ∧
      ¬ (s.baseWord = t.baseWord ∧ s.attributesWord = t.attributesWord) ∧
      (Descriptor.mk s.baseWord s.attributesWord).covers 0x29FFF = true ∧
      ¬ (Descriptor.mk s.baseWord s.attributesWord).Reaches 0x2A000 := by
  obtain ⟨-, hunique, hreaches⟩ := words_encode
  let s : Slot := ⟨3, 0x20000, ⟨15, by decide, by decide⟩, 5, .readOnly, true,
    ⟨7, true, false, true⟩, true⟩
  have hs : s.Plain := ⟨by decide, by decide, by decide⟩
  have ht : ({ s with eighths := 4 } : Slot).Plain := ⟨by decide, by decide, by decide⟩
  refine ⟨s, _, hs, ht, rfl, rfl, fun h => ?_, ?_, fun h => ?_⟩
  · exact absurd ((hunique s _ hs ht).mp h) (by decide)
  · exact (hreaches s hs (by decide) (by decide) _).2.mpr (by decide)
  · exact absurd ((hreaches s hs (by decide) (by decide) _).1.mp h) (by decide)

end Slot
end CodeGuard
