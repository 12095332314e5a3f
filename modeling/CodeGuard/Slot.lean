import CodeGuard.Config
import CodeGuard.Layout
import CodeGuard.Register

/-!
# CodeGuard.Slot

One region as it is wanted, and the two register words that describe it to the unit.

* `Slot.baseWord`, `Slot.attributesWord`: the encoding.
* `Slot.ofBlock`, `Slot.ofBackground`, `Slot.ofGuard`: the three roles of a region, and what is
  refused in each.
-/

namespace CodeGuard

inductive Permission where
  | noAccess
  | privilegedReadWrite
  | privilegedReadWriteElseRead
  | fullAccess
  | privilegedRead
  | readOnly
  deriving DecidableEq

namespace Permission

def code : Permission → Nat
  | .noAccess => 0
  | .privilegedReadWrite => 1
  | .privilegedReadWriteElseRead => 2
  | .fullAccess => 3
  | .privilegedRead => 5
  | .readOnly => 6

def name : Permission → String
  | .noAccess => "NoAccess"
  | .privilegedReadWrite => "PrivRw"
  | .privilegedReadWriteElseRead => "PrivRwUnprivRo"
  | .fullAccess => "FullAccess"
  | .privilegedRead => "PrivRo"
  | .readOnly => "ReadOnly"

end Permission

/-- How the bus treats the memory behind a region. -/
structure MemoryType where
  typeExtension : Nat
  cacheable : Bool
  bufferable : Bool
  shareable : Bool
  deriving DecidableEq

namespace MemoryType

def stronglyOrdered : MemoryType :=
  ⟨0, false, false, true⟩

/-- Ordinary memory, written through the cache. -/
def normalWriteThrough : MemoryType :=
  ⟨0, true, false, true⟩

end MemoryType

/-- The disable mask that leaves the lowest `eighths` enabled; 0, and 8 and more, leave all. -/
def disableMask (eighths : Nat) : Nat :=
  if eighths = 0 ∨ Limits.subregions ≤ eighths then 0 else (0xFF <<< eighths) % 0x100

structure Slot where
  id : UInt8
  base : UInt32
  size : RegionSize
  eighths : Nat
  permission : Permission
  executable : Bool
  memory : MemoryType
  enabled : Bool
  deriving DecidableEq

namespace Slot

def consumed (s : Slot) : Nat :=
  if s.eighths = 0 then s.size.bytes else s.size.bytes / Limits.subregions * s.eighths

def baseWord (s : Slot) : UInt32 :=
  BaseWord.ofAddress s.base

def attributesWord (s : Slot) : UInt32 :=
  AttributesWord.permission.place s.permission.code |||
  AttributesWord.typeExtension.place s.memory.typeExtension |||
  AttributesWord.cacheable.place s.memory.cacheable.toNat |||
  AttributesWord.bufferable.place s.memory.bufferable.toNat |||
  AttributesWord.shareable.place s.memory.shareable.toNat |||
  AttributesWord.executeNever.place (!s.executable).toNat |||
  AttributesWord.disabledEighths.place (disableMask s.eighths) |||
  AttributesWord.size.place s.size.code |||
  AttributesWord.enable.place s.enabled.toNat

/-- Code can be read and executed by all and written by none. -/
def ofBlock (id : UInt8) (b : Block) : Except Error Slot :=
  match RegionSize.ofBytes? b.size with
  | none => .error .invalidRegionSize
  | some size =>
    if b.base % b.size ≠ 0 then
      .error .invalidAlignment
    else
      .ok {
        id
        base := UInt32.ofNat b.base
        size
        eighths := b.eighths
        permission := .readOnly
        executable := true
        memory := .normalWriteThrough
        enabled := true }

/-- The background is open to all; `executable` only where code is left unprotected. -/
def ofBackground (w : Window) (executable : Bool) : Except Error Slot :=
  if ¬ w.WellFormed then
    .error .invalidAlignment
  else
    match RegionSize.ofBytes? w.size.toNat with
    | none => .error .invalidRegionSize
    | some size =>
      .ok {
        id := 0
        base := w.base
        size
        eighths := 0
        permission := .fullAccess
        executable
        memory := .normalWriteThrough
        enabled := true }

/-- The first multiple of `guardSize` at or after `codeEnd`, if the sum on the way to it stays
below 2³². -/
def guardBase? (codeEnd guardSize : UInt32) : Option UInt32 :=
  let reach := codeEnd.toNat + (guardSize.toNat - 1)
  if reach < UInt32.size then
    some (UInt32.ofNat (reach / guardSize.toNat * guardSize.toNat))
  else
    none

/-- The guard is closed to all. -/
def ofGuard (id : UInt8) (codeEnd guardSize : UInt32) : Except Error Slot :=
  match RegionSize.ofBytes? guardSize.toNat with
  | none => .error .invalidRegionSize
  | some size =>
    match guardBase? codeEnd guardSize with
    | none => .error .invalidParameter
    | some base =>
      .ok {
        id
        base
        size
        eighths := 0
        permission := .noAccess
        executable := false
        memory := .stronglyOrdered
        enabled := true }

end Slot
end CodeGuard
