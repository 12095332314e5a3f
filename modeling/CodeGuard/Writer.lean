import CodeGuard.ByteStore
import CodeGuard.Core

/-!
# CodeGuard.Writer

Writing to code that the unit keeps read-only.

* `Core.writeSlice`: plain privileged stores.
* `Core.writeUnlocked`: stores with the unit off. Interrupts are masked before it goes off and
  opened after it is on again, whatever the stores came to.
* `Writer.write`: checks the bounds, then takes one of the two ways.
-/

namespace CodeGuard

inductive WriteError where
  | outOfBounds (address : UInt32) (length : Nat)
  | nestedUnlock
  | inactive
  | fault (cause : BusError)
  deriving DecidableEq

namespace WriteError

def message : WriteError → String
  | .outOfBounds address length =>
    "write of " ++ toString length ++ " bytes at 0x" ++ Hex.lower 8 address.toNat ++
      " out of bounds"
  | .nestedUnlock => "MPU already unlocked"
  | .inactive => "code protection inactive"
  | .fault cause => "store failed: " ++ cause.message

def toError : WriteError → Error
  | .outOfBounds _ _ => .writeOutOfBounds
  | .nestedUnlock => .nestedUnlock
  | .inactive => .protectionInactive
  | .fault cause => cause.toError

end WriteError

namespace Core

def writeSlice (c : Core) (a : UInt32) (data : List UInt8) :
    Except Overrun (Core × Except BusError Unit) :=
  storeAll writeByte c a data

/-- Refused while the unit is off, since then someone else has unlocked it. -/
def writeUnlocked (c : Core) (a : UInt32) (data : List UInt8) :
    Except Overrun (Core × Except WriteError Unit) :=
  if c.enabled then do
    let c₁ ← c.issueAll [.mask, .memoryBarrier, .setControl ControlWord.disabled]
    let (c₂, result) ← c₁.writeSlice a data
    let c₃ ← c₂.issueAll [.setControl c.control, .syncBarrier, .fetchBarrier, .restore c.primask]
    pure (c₃, result.mapError .fault)
  else do
    let c₁ ← c.issueAll [.mask, .restore c.primask]
    pure (c₁, .error .nestedUnlock)

end Core

inductive Payload where
  | byte (value : UInt8)
  | word (value : UInt32)
  | bytes (data : List UInt8)

/-- The bytes in the order of their addresses; of a word the lowest comes first. -/
def Payload.toList : Payload → List UInt8
  | .byte v => [v]
  | .word v => [v.toUInt8, (v >>> 8).toUInt8, (v >>> 16).toUInt8, (v >>> 24).toUInt8]
  | .bytes data => data

/-- Writes to the image, which lies under `limit`. -/
structure Writer where
  limit : UInt32
  /-- The unit guards the image, so a write has to unlock it. -/
  active : Bool
  deriving DecidableEq

namespace Writer

/-- The write starts in the image and does not reach past it. -/
def Admits (w : Writer) (a : UInt32) (length : Nat) : Prop :=
  a.toNat < w.limit.toNat ∧ a.toNat + length ≤ w.limit.toNat

instance (w : Writer) (a : UInt32) (length : Nat) : Decidable (w.Admits a length) := by
  unfold Admits
  infer_instance

def write (w : Writer) (c : Core) (a : UInt32) (data : List UInt8) :
    Except Overrun (Core × Except WriteError Unit) :=
  if w.Admits a data.length then
    if data = [] then
      .ok (c, .ok ())
    else if w.active then
      c.writeUnlocked a data
    else
      (c.writeSlice a data).map fun (c', result) => (c', result.mapError .fault)
  else
    .ok (c, .error (.outOfBounds a data.length))

end Writer
end CodeGuard
