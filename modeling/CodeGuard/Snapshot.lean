import CodeGuard.Core
import CodeGuard.RegionTable

/-!
# CodeGuard.Snapshot

The registers of the unit as text, one line for each region, either as a table wants them or as
they were read back from a core.

* `RegionTable.listing`: the lines of a table.
* `Snapshot.ofCore`: reads the registers back, region by region, through the selector.
* `Snapshot.matchesTable`: every slot of a table stands in the registers of its number.
-/

namespace CodeGuard

structure Reading where
  id : UInt8
  descriptor : Descriptor
  deriving DecidableEq

namespace Reading

/-- Rights of privileged code under a value of the permission field. -/
def privilegedText (permission : Nat) (executeNever : Bool) : String :=
  match permission, executeNever with
  | 0, _ => "---"
  | 1, true | 2, true | 3, true => "RW-"
  | 1, false | 2, false | 3, false => "RWX"
  | 5, true | 6, true | 7, true => "R--"
  | 5, false | 6, false | 7, false => "R-X"
  | _, _ => "???"

/-- Rights of other code. -/
def unprivilegedText (permission : Nat) (executeNever : Bool) : String :=
  match permission, executeNever with
  | 0, _ | 1, _ | 5, _ => "---"
  | 3, true => "RW-"
  | 3, false => "RWX"
  | 2, true | 6, true | 7, true => "R--"
  | 2, false | 6, false | 7, false => "R-X"
  | _, _ => "???"

def flag (isSet : Bool) (letter : String) : String :=
  if isSet then letter else " "

/-- Number, state, first and last address, rights, memory type and disable mask. The base is shown
as it stands in the register, also where the unit would round it down. -/
def line (r : Reading) : String :=
  let w := r.descriptor.attributes
  let first := (BaseWord.ofAddress r.descriptor.base).toNat
  let last := first + AttributesWord.bytes w - 1
  let permission := AttributesWord.permission.read w
  let executeNever := AttributesWord.executeNever.isSet w
  toString r.id ++ ": " ++ (if AttributesWord.enable.isSet w then "E" else "D") ++ " " ++
    Hex.lower 8 first ++ "-" ++ Hex.lower 8 last ++
    " S: " ++ privilegedText permission executeNever ++
    " U: " ++ unprivilegedText permission executeNever ++
    " TEX: " ++ toString (AttributesWord.typeExtension.read w) ++ " " ++
    flag (AttributesWord.shareable.isSet w) "S" ++
    flag (AttributesWord.cacheable.isSet w) "C" ++
    flag (AttributesWord.bufferable.isSet w) "B" ++ " " ++
    Hex.lower 2 (AttributesWord.disabledEighths.read w) ++ "\n"

def ofSlot (s : Slot) : Reading :=
  ⟨s.id, s.baseWord, s.attributesWord⟩

end Reading

def RegionTable.listing (t : RegionTable) : String :=
  String.join (t.slots.map fun s => (Reading.ofSlot s).line)

structure Snapshot where
  control : UInt32
  readings : List Reading
  deriving DecidableEq

namespace Snapshot

def header (control : UInt32) : String :=
  "MPU: " ++ toString (ControlWord.enable.read control) ++
    " HFNMIENA: " ++ toString (ControlWord.inHandlers.read control) ++
    " PRIVDEFENA: " ++ toString (ControlWord.privilegedDefault.read control) ++ "\n"

def text (s : Snapshot) : String :=
  header s.control ++ String.join (s.readings.map Reading.line)

/-- Every slot of the table was read with its number and its two words. -/
def matchesTable (s : Snapshot) (t : RegionTable) : Bool :=
  t.slots.all fun slot => s.readings.any fun r => r == Reading.ofSlot slot

/-- Reads `n` regions, the first of them `id`. -/
def readFrom (c : Core) : (n id : Nat) → Except Overrun (Core × List Reading)
  | 0, _ => .ok (c, [])
  | n + 1, id =>
    match c.issue (.selectRegion (UInt8.ofNat id)) with
    | .error o => .error o
    | .ok c₁ =>
      match c₁.selectedRegion with
      | .error o => .error o
      | .ok d =>
        match readFrom c₁ n (id + 1) with
        | .error o => .error o
        | .ok (c₂, rest) => .ok (c₂, ⟨UInt8.ofNat id, d⟩ :: rest)

/-- The first `count` regions, or all that the unit claims to have. -/
def ofCore (c : Core) (count : UInt8) : Except Overrun (Core × Snapshot) :=
  match readFrom c (min count.toNat c.regionCount.toNat) 0 with
  | .error o => .error o
  | .ok (c', readings) => .ok (c', ⟨c.control, readings⟩)

end Snapshot
end CodeGuard
