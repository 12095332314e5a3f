/-!
# CodeGuard.Register

The registers of the protection unit, as 32-bit words with named bit fields.

* `BitField.read`: the number that a field holds; `BitField.place`: a word with that number in the
  field and zeros elsewhere. Words are put together with `|||` from placed fields; `read_or`,
  `read_place` and `read_place_of_disjoint` read them apart again.
* `TypeWord`, `ControlWord`, `BaseWord`, `AttributesWord`: the fields of each register.
-/

namespace CodeGuard

/-- `width` bits of a word, from bit `offset` up. -/
structure BitField where
  offset : Nat
  width : Nat

namespace BitField

def read (f : BitField) (w : UInt32) : Nat :=
  (w.toNat >>> f.offset) % (1 <<< f.width)

def isSet (f : BitField) (w : UInt32) : Bool :=
  f.read w != 0

/-- Bits of `n` that do not fit the field are dropped. -/
def place (f : BitField) (n : Nat) : UInt32 :=
  UInt32.ofNat ((n % (1 <<< f.width)) <<< f.offset)

def mask (f : BitField) : UInt32 :=
  f.place (1 <<< f.width - 1)

def clear (f : BitField) (w : UInt32) : UInt32 :=
  w &&& ~~~f.mask

theorem toNat_place {f : BitField} (h : f.offset + f.width ≤ 32) (n : Nat) :
    (f.place n).toNat = (n % (1 <<< f.width)) <<< f.offset := by
  simp only [place, UInt32.toNat_ofNat', Nat.one_shiftLeft]
  apply Nat.mod_eq_of_lt
  rw [Nat.shiftLeft_eq]
  calc
    _ < _ := Nat.mul_lt_mul_of_pos_right (Nat.mod_lt n (Nat.two_pow_pos f.width))
        (Nat.two_pow_pos f.offset)
    _ = _ := (Nat.pow_add 2 f.width f.offset).symm
    _ ≤ _ := Nat.pow_le_pow_right (by decide) (Nat.add_comm f.width f.offset ▸ h)

theorem testBit_place {f : BitField} (h : f.offset + f.width ≤ 32) (n k : Nat) :
    (f.place n).toNat.testBit k =
      (decide (f.offset ≤ k) && (decide (k - f.offset < f.width) && n.testBit (k - f.offset))) := by
  rw [toNat_place h, Nat.one_shiftLeft, Nat.testBit_shiftLeft, Nat.testBit_mod_two_pow]

theorem testBit_read (f : BitField) (w : UInt32) (i : Nat) :
    (f.read w).testBit i = (decide (i < f.width) && w.toNat.testBit (f.offset + i)) := by
  rw [read, Nat.one_shiftLeft, Nat.testBit_mod_two_pow, Nat.testBit_shiftRight]

theorem read_or (f : BitField) (v w : UInt32) : f.read (v ||| w) = f.read v ||| f.read w := by
  apply Nat.eq_of_testBit_eq
  intro i
  rw [Nat.testBit_or, testBit_read, testBit_read, testBit_read, UInt32.toNat_or, Nat.testBit_or,
    Bool.and_or_distrib_left]

theorem read_place {f : BitField} (h : f.offset + f.width ≤ 32) (n : Nat) :
    f.read (f.place n) = n % (1 <<< f.width) := by
  simp [read, toNat_place h, Nat.shiftLeft_shiftRight]

theorem read_place_of_disjoint {f g : BitField} (hg : g.offset + g.width ≤ 32)
    (h : f.offset + f.width ≤ g.offset ∨ g.offset + g.width ≤ f.offset) (n : Nat) :
    f.read (g.place n) = 0 := by
  apply Nat.eq_of_testBit_eq
  intro i
  rw [testBit_read, testBit_place hg, Nat.zero_testBit]
  by_cases hf : i < f.width <;> by_cases ho : g.offset ≤ f.offset + i <;>
    by_cases hw : f.offset + i - g.offset < g.width <;> simp [hf, ho, hw]
  omega

/-- A field that was cleared holds nothing. -/
theorem read_clear {f : BitField} (h : f.offset + f.width ≤ 32) (w : UInt32) :
    f.read (f.clear w) = 0 := by
  apply Nat.eq_of_testBit_eq
  intro i
  rw [testBit_read, Nat.zero_testBit]
  by_cases hi : i < f.width
  · have hmask : f.mask.toNat.testBit (f.offset + i) = true := by
      rw [mask, testBit_place h, Nat.one_shiftLeft, Nat.testBit_two_pow_sub_one]
      simp [hi]
    rw [← UInt32.toNat_toBitVec, BitVec.testBit_toNat] at hmask
    rw [clear, ← UInt32.toNat_toBitVec, BitVec.testBit_toNat, UInt32.toBitVec_and,
      UInt32.toBitVec_not, BitVec.getLsbD_and, BitVec.getLsbD_not, hmask]
    simp
  · simp [hi]

theorem read_lt (f : BitField) (w : UInt32) : f.read w < 1 <<< f.width :=
  Nat.mod_lt _ (Nat.one_shiftLeft f.width ▸ Nat.two_pow_pos _)

end BitField

def unitBase : UInt32 := 0xE000ED90

namespace TypeWord

def instructionRegions : BitField := ⟨16, 8⟩
def dataRegions : BitField := ⟨8, 8⟩
def separate : BitField := ⟨0, 1⟩

end TypeWord

namespace ControlWord

/-- Privileged code sees the default map where no region matches. -/
def privilegedDefault : BitField := ⟨2, 1⟩
/-- The unit stays on in the hard fault and non-maskable handlers. -/
def inHandlers : BitField := ⟨1, 1⟩
def enable : BitField := ⟨0, 1⟩

/-- On, with the default map for privileged code. -/
def running : UInt32 :=
  enable.place 1 ||| inHandlers.place 1 ||| privilegedDefault.place 1

def disabled : UInt32 := 0

end ControlWord

namespace BaseWord

def address : BitField := ⟨5, 27⟩
def valid : BitField := ⟨4, 1⟩
def region : BitField := ⟨0, 4⟩

/-- The address bits; the rest of a base word is not part of the address. -/
def addressMask : UInt32 := 0xFFFFFFE0

/-- The base word for a region at `a`: `a` without its five low bits. -/
def ofAddress (a : UInt32) : UInt32 :=
  a &&& addressMask

end BaseWord

namespace AttributesWord

def executeNever : BitField := ⟨28, 1⟩
def permission : BitField := ⟨24, 3⟩
def typeExtension : BitField := ⟨19, 3⟩
def shareable : BitField := ⟨18, 1⟩
def cacheable : BitField := ⟨17, 1⟩
def bufferable : BitField := ⟨16, 1⟩
/-- One bit for each eighth of the region, the lowest first; a set bit takes the eighth out. -/
def disabledEighths : BitField := ⟨8, 8⟩
def size : BitField := ⟨1, 5⟩
def enable : BitField := ⟨0, 1⟩

/-- Bytes of the region: two to the power of one more than the size field. -/
def bytes (w : UInt32) : Nat :=
  1 <<< (size.read w + 1)

def permissionName : Nat → String
  | 0 => "NoAccess"
  | 1 => "PrivilegedRw"
  | 2 => "UnprivilegedRo"
  | 3 => "FullAccess"
  | 4 => "Reserved"
  | 5 => "PrivilegedRo"
  | 6 => "ReadOnly"
  | _ => "ReadOnlyAlias"

end AttributesWord
end CodeGuard
