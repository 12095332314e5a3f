import CodeGuard.Core
import CodeGuard.RegionTable

/-!
# CodeGuard.Load

Loading a region table into the unit.

* `RegionTable.loadOps`: the operations of one load. Interrupts are masked and the unit is off
  while regions change; each region is off while its base changes; regions that the table does not
  use are switched off, since a leftover above the guard would win over it.
* `Core.load`: refuses a table that the unit has no room for, else issues those operations.
-/

namespace CodeGuard

inductive LoadError where
  | notPresent
  | tooManyRegions (needed : Nat) (available : UInt8)
  deriving DecidableEq

namespace LoadError

def message : LoadError → String
  | .notPresent => "MPU not present"
  | .tooManyRegions needed available =>
    "table needs " ++ toString needed ++ " regions, MPU has " ++ toString available

def toError : LoadError → Error
  | .notPresent => .mpuNotPresent
  | .tooManyRegions _ _ => .tooManyRegions

end LoadError

/-- Switches the region off, moves it, and switches it on. -/
def Slot.loadOps (s : Slot) : List BusOp :=
  [.selectRegion s.id,
    .setAttributes (AttributesWord.enable.clear s.attributesWord),
    .setBase s.baseWord,
    .setAttributes s.attributesWord]

/-- Switches off the regions from `used` up to `available`. -/
def clearOps (used available : Nat) : List BusOp :=
  (List.range' used (available - used)).flatMap fun id =>
    [.selectRegion (UInt8.ofNat id), .setAttributes 0]

namespace RegionTable

def loadOps (t : RegionTable) (available : UInt8) (primask : UInt32) : List BusOp :=
  [.mask, .memoryBarrier, .setControl ControlWord.disabled] ++
    t.slots.flatMap Slot.loadOps ++
    clearOps t.length available.toNat ++
    [.setControl ControlWord.running, .syncBarrier, .fetchBarrier, .restore primask]

end RegionTable

namespace Core

def load (c : Core) (t : RegionTable) : Except Overrun (Core × Except LoadError Unit) :=
  if c.regionCount = 0 then
    .ok (c, .error .notPresent)
  else if c.regionCount.toNat < t.length then
    .ok (c, .error (.tooManyRegions t.length c.regionCount))
  else
    (c.issueAll (t.loadOps c.regionCount c.primask)).map fun c' => (c', .ok ())

end Core
end CodeGuard
