import CodeGuard.Descriptor
import CodeGuard.Error

/-!
# CodeGuard.Core

A simulated processor core: the protection unit, the interrupt mask and the code memory, with a
trace of the operations issued to them.

* `Core.apply`: the effect of one operation. `Core.issue` also records it, so the trace of a run,
  replayed with `apply`, leads through the same states.
* `Core.matchingRegion`: the highest region that decides accesses at an address.
* `Core.access`: the rights there.
* `Core.readByte`, `Core.writeByte`: privileged accesses to the code memory.

The unit has sixteen register pairs. A core may claim more regions than that; an operation that
reaches for a pair past the sixteenth ends the run with an `Overrun`.
-/

namespace CodeGuard

/-- A register pair past the last one was asked for. -/
structure Overrun where
  index : Nat
  deriving DecidableEq

namespace Overrun

def message (o : Overrun) : String :=
  "index out of bounds: the len is " ++ toString Limits.maxRegions ++ " but the index is " ++
    toString o.index

end Overrun

inductive BusOp where
  | setControl (value : UInt32)
  | selectRegion (region : UInt8)
  | setBase (value : UInt32)
  | setAttributes (value : UInt32)
  | memoryBarrier
  | syncBarrier
  | fetchBarrier
  | mask
  | restore (primask : UInt32)
  | store (address : UInt32) (value : UInt8)
  deriving DecidableEq

namespace BusOp

/-- One word, with its number in brackets where it has one. -/
def text : BusOp → String
  | .setControl value => "SetControl(" ++ toString value ++ ")"
  | .selectRegion region => "SelectRegion(" ++ toString region ++ ")"
  | .setBase value => "SetBase(" ++ toString value ++ ")"
  | .setAttributes value => "SetAttributes(" ++ toString value ++ ")"
  | .memoryBarrier => "Dmb"
  | .syncBarrier => "Dsb"
  | .fetchBarrier => "Isb"
  | .mask => "Mask"
  | .restore _ => "Restore"
  | .store address _ => "Store(" ++ toString address ++ ")"

end BusOp

/-- Whether an interrupt mask word keeps interrupts out. -/
def masksInterrupts (primask : UInt32) : Bool :=
  primask &&& 1 != 0

structure Core where
  /-- Regions that the unit claims to have. -/
  regionCount : UInt8
  control : UInt32
  /-- The region that base and attribute accesses go to. -/
  selected : UInt8
  regions : Vector Descriptor 16
  primask : UInt32
  memory : Array UInt8
  faults : UInt32
  /-- Stores made while interrupts were open. -/
  unmaskedStores : UInt32
  trace : Array BusOp

namespace Core

def erased : UInt8 := 0xFF

/-- After reset: all registers zero, all memory erased. -/
def reset (regionCount : UInt8) (memorySize : Nat) : Core where
  regionCount
  control := 0
  selected := 0
  regions := Vector.replicate 16 .zero
  primask := 0
  memory := Array.replicate memorySize erased
  faults := 0
  unmaskedStores := 0
  trace := #[]

/-- The type register; only its region count is not zero. -/
def typeWord (c : Core) : UInt32 :=
  TypeWord.dataRegions.place c.regionCount.toNat

def enabled (c : Core) : Bool :=
  ControlWord.enable.isSet c.control

def interruptsMasked (c : Core) : Bool :=
  masksInterrupts c.primask

/-! ## Region registers -/

def region (c : Core) (i : Nat) : Except Overrun Descriptor :=
  if h : i < 16 then .ok c.regions[i] else .error ⟨i⟩

def setRegion (c : Core) (i : Nat) (d : Descriptor) : Except Overrun Core :=
  if h : i < 16 then .ok { c with regions := c.regions.set i d } else .error ⟨i⟩

/-- The registers of a region, if the unit claims to have it. -/
def claimedRegion (c : Core) (i : UInt8) : Except Overrun (Option Descriptor) :=
  if i < c.regionCount then (c.region i.toNat).map some else .ok none

/-- Zero where the selected region does not exist. -/
def selectedRegion (c : Core) : Except Overrun Descriptor :=
  if c.selected < c.regionCount then c.region c.selected.toNat else .ok .zero

def updateSelected (c : Core) (f : Descriptor → Descriptor) : Except Overrun Core :=
  if c.selected < c.regionCount then
    match c.region c.selected.toNat with
    | .error o => .error o
    | .ok d => c.setRegion c.selected.toNat (f d)
  else
    .ok c

/-! ## Operations -/

/-- The byte goes to memory if there is memory at `a`; an open interrupt mask is counted. -/
def store (c : Core) (a : UInt32) (v : UInt8) : Core :=
  let unmaskedStores := if c.interruptsMasked then c.unmaskedStores else c.unmaskedStores + 1
  { c with memory := c.memory.setIfInBounds a.toNat v, unmaskedStores }

def apply (c : Core) : BusOp → Except Overrun Core
  | .setControl value => .ok { c with control := value }
  | .selectRegion region => .ok { c with selected := region }
  | .setBase value => c.updateSelected fun d => { d with base := BaseWord.ofAddress value }
  | .setAttributes value => c.updateSelected fun d => { d with attributes := value }
  | .memoryBarrier | .syncBarrier | .fetchBarrier => .ok c
  | .mask => .ok { c with primask := 1 }
  | .restore primask => .ok { c with primask }
  | .store address value => .ok (c.store address value)

def record (c : Core) (op : BusOp) : Core :=
  { c with trace := c.trace.push op }

def issue (c : Core) (op : BusOp) : Except Overrun Core :=
  (c.apply op).map (·.record op)

def issueAll (c : Core) : List BusOp → Except Overrun Core
  | [] => .ok c
  | op :: rest =>
    match c.issue op with
    | .error o => .error o
    | .ok c' => c'.issueAll rest

theorem issueAll_append (c : Core) (ops rest : List BusOp) :
    c.issueAll (ops ++ rest) =
      match c.issueAll ops with
      | .error o => .error o
      | .ok c' => c'.issueAll rest := by
  induction ops generalizing c with
  | nil => rfl
  | cons op ops ih =>
    simp only [List.cons_append, issueAll]
    cases c.issue op with
    | error o => rfl
    | ok c' => exact ih c'

/-! ## Access rights -/

/-- The highest region under `n` that decides accesses at `a`. -/
def matchBelow (c : Core) (a : UInt32) : (n : Nat) → Except Overrun (Option Nat)
  | 0 => .ok none
  | n + 1 =>
    match c.region n with
    | .error o => .error o
    | .ok d => if d.covers a.toNat then .ok (some n) else c.matchBelow a n

def matchingRegion (c : Core) (a : UInt32) : Except Overrun (Option Nat) :=
  c.matchBelow a c.regionCount.toNat

/-- While the unit is off everything is allowed. Where no region matches, privileged code has the
default map, if it was switched on. -/
def access (c : Core) (a : UInt32) (privileged : Bool) : Except Overrun Access :=
  if c.enabled then
    match c.matchingRegion a with
    | .error o => .error o
    | .ok none =>
      .ok (if privileged && ControlWord.privilegedDefault.isSet c.control then .all else .none)
    | .ok (some i) =>
      match c.region i with
      | .error o => .error o
      | .ok d => .ok (.granted d.attributes privileged)
  else
    .ok .all

/-! ## Code memory -/

/-- At most `count` bytes from `a` on, looked at from outside the core. -/
def memorySlice (c : Core) (a : UInt32) (count : Nat) : List UInt8 :=
  (c.memory.extract a.toNat (a.toNat + count)).toList

def readByte (c : Core) (a : UInt32) : Except Overrun (Except BusError UInt8) :=
  match c.memory[a.toNat]? with
  | none => .ok (.error .invalidAddress)
  | some v =>
    match c.access a true with
    | .error o => .error o
    | .ok rights => .ok (if rights.read then .ok v else .error .accessViolation)

/-- A refused store is counted and changes nothing else. -/
def writeByte (c : Core) (a : UInt32) (v : UInt8) : Except Overrun (Core × Except BusError Unit) :=
  if a.toNat < c.memory.size then
    match c.access a true with
    | .error o => .error o
    | .ok rights =>
      if rights.write then
        (c.issue (.store a v)).map fun c' => (c', .ok ())
      else
        .ok ({ c with faults := c.faults + 1 }, .error .accessViolation)
  else
    .ok (c, .error .invalidAddress)

end Core
end CodeGuard
