import CodeGuard.Limits
import CodeGuard.Register

/-!
# CodeGuard.Descriptor

What the unit makes of one pair of region registers.

* `Descriptor.covers`: whether the region decides accesses at an address.
* `Access.granted`: the rights that a region's attributes give.
-/

namespace CodeGuard

structure Access where
  read : Bool
  write : Bool
  execute : Bool
  deriving DecidableEq

namespace Access

def none : Access := ⟨false, false, false⟩

def all : Access := ⟨true, true, true⟩

/-- Rights to read and to write under a value of the permission field. -/
def ofPermission : (permission : Nat) → (privileged : Bool) → Bool × Bool
  | 1, true | 2, true | 3, true => (true, true)
  | 2, false => (true, false)
  | 3, false => (true, true)
  | 5, true | 6, _ | 7, _ => (true, false)
  | _, _ => (false, false)

/-- Code can be executed where it can be read, unless the attributes forbid it. -/
def granted (attributes : UInt32) (privileged : Bool) : Access :=
  let (read, write) := ofPermission (AttributesWord.permission.read attributes) privileged
  ⟨read, write, read && !AttributesWord.executeNever.isSet attributes⟩

end Access

structure Descriptor where
  base : UInt32
  attributes : UInt32
  deriving DecidableEq

namespace Descriptor

def zero : Descriptor := ⟨0, 0⟩

def enabled (d : Descriptor) : Bool :=
  AttributesWord.enable.isSet d.attributes

def bytes (d : Descriptor) : Nat :=
  AttributesWord.bytes d.attributes

/-- The address bits of the base word, rounded down to a multiple of the region's size. -/
def start (d : Descriptor) : Nat :=
  (BaseWord.ofAddress d.base).toNat / d.bytes * d.bytes

/-- Whether the disable mask takes out the eighth that holds `a`. Regions under 256 bytes have no
eighths. -/
def masked (d : Descriptor) (a : Nat) : Bool :=
  decide (Limits.minSubdivided ≤ d.bytes) &&
    (AttributesWord.disabledEighths.read d.attributes).testBit
      ((a - d.start) / (d.bytes / Limits.subregions))

def covers (d : Descriptor) (a : Nat) : Bool :=
  d.enabled && decide (d.start ≤ a ∧ a < d.start + d.bytes) && !d.masked a

end Descriptor
end CodeGuard
