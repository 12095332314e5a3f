import CodeGuard.Choice
import CodeGuard.Inspect

/-!
# CodeGuard.Bench

A core on a test bench, driven command by command.

The bench holds what a program around the core would hold: a log, the guards that keep interrupts
out, a region table to load, the protection of the last boot, and a writer.

* `Bench.step`: one command, with its reply.
* `Bench.run`: commands up to the first that ends in an `Overrun`, with a report on each.
-/

namespace CodeGuard

inductive Command where
  | issue (op : BusOp)
  /-- Sets the control register behind the trace's back. -/
  | forceControl (value : UInt32)
  | clearTrace
  | registers
  | region (i : UInt8)
  | probe (addresses : List UInt32)
  | memory (address : UInt32) (count : Nat)
  | read (address : UInt32)
  | write (address : UInt32) (value : UInt8)
  | writeSlice (address : UInt32) (data : List UInt8)
  | mask
  | pushGuard
  | popGuard
  | chooseTable (choice : TableChoice)
  | load
  | readBack (count : UInt8)
  | setThreshold (level : Log.Level)
  | boot (config : Config)
  | log
  | listing
  | dump
  | inspect
  | protectedWrite (address : UInt32) (payload : Payload)
  | newWriter (limit : UInt32) (active : Bool)
  /-- Takes the writer of the last boot's protection. -/
  | takeWriter
  /-- Writes through the writer last made or taken. -/
  | writerWrite (address : UInt32) (payload : Payload)

/-- The registers, and those of the selected region. -/
structure RegisterView where
  typeWord : UInt32
  regionCount : UInt8
  control : UInt32
  enabled : Bool
  selected : Descriptor

/-- What decides an access, and the rights of privileged and of other code. -/
structure ProbeView where
  address : UInt32
  region : Option Nat
  privileged : Access
  unprivileged : Access

inductive Reply where
  | done
  | failed (cause : Failure)
  /-- The command needs something that the bench does not hold yet. -/
  | missing (what : String)
  | registers (view : RegisterView)
  | region (registers : Option Descriptor)
  | probes (views : List ProbeView)
  | memory (data : List UInt8)
  | byte (value : UInt8)
  | interruptState (primask : UInt32)
  | guardDropped (dropped : Bool)
  | table (t : RegionTable)
  | snapshot (s : Snapshot) (isMatch : Option Bool)
  | booted (p : Protection)
  | entries (entries : List Log.Entry)
  | listing (text : Option String)
  | text (text : String)
  | writer (w : Writer)

structure Bench where
  core : Core
  /-- The interrupt masks that the guards will restore, the newest first. -/
  guards : List UInt32 := []
  table : Option RegionTable := none
  protection : Option Protection := none
  writer : Option Writer := none
  log : Log := {}

namespace Bench

def start (regionCount : UInt8) (memorySize : Nat) : Bench where
  core := .reset regionCount memorySize

def withCore (b : Bench) (c : Core) : Bench :=
  { b with core := c }

def ofResult {ε : Type} (toFailure : ε → Failure) : Except ε Unit → Reply
  | .ok () => .done
  | .error e => .failed (toFailure e)

def probeAt (c : Core) (a : UInt32) : Except Overrun ProbeView := do
  let region ← c.matchingRegion a
  let privileged ← c.access a true
  let unprivileged ← c.access a false
  pure ⟨a, region, privileged, unprivileged⟩

def writeThrough (b : Bench) (w : Writer) (a : UInt32) (payload : Payload) :
    Except Overrun (Bench × Reply) := do
  let (c, result) ← w.write b.core a payload.toList
  pure (b.withCore c, ofResult .write result)

def snapshotReply (s : Snapshot) (t : Option RegionTable) : Reply :=
  .snapshot s (t.map s.matchesTable)

def withProtection (b : Bench) (f : Protection → Except Overrun (Bench × Reply)) :
    Except Overrun (Bench × Reply) :=
  match b.protection with
  | none => pure (b, .missing "protection")
  | some p => f p

def withWriter (b : Bench) (f : Writer → Except Overrun (Bench × Reply)) :
    Except Overrun (Bench × Reply) :=
  match b.writer with
  | none => pure (b, .missing "writer")
  | some w => f w

def step (b : Bench) : Command → Except Overrun (Bench × Reply)
  | .issue op => do
    let c ← b.core.issue op
    pure (b.withCore c, .done)
  | .forceControl value => pure (b.withCore { b.core with control := value }, .done)
  | .clearTrace => pure (b.withCore { b.core with trace := #[] }, .done)
  | .registers => do
    let c := b.core
    let selected ← c.selectedRegion
    pure (b, .registers ⟨c.typeWord, c.regionCount, c.control, c.enabled, selected⟩)
  | .region i => do
    let d ← b.core.claimedRegion i
    pure (b, .region d)
  | .probe addresses => do
    let views ← addresses.mapM (probeAt b.core)
    pure (b, .probes views)
  | .memory a count => pure (b, .memory (b.core.memorySlice a count))
  | .read a => do
    match ← b.core.readByte a with
    | .ok v => pure (b, .byte v)
    | .error e => pure (b, .failed (.bus e))
  | .write a v => do
    let (c, result) ← b.core.writeByte a v
    pure (b.withCore c, ofResult .bus result)
  | .writeSlice a data => do
    let (c, result) ← b.core.writeSlice a data
    pure (b.withCore c, ofResult .bus result)
  | .mask => do
    let c ← b.core.issue .mask
    pure (b.withCore c, .interruptState b.core.primask)
  | .pushGuard => do
    let c ← b.core.issue .mask
    pure ({ b with core := c, guards := b.core.primask :: b.guards },
      .interruptState b.core.primask)
  | .popGuard =>
    match b.guards with
    | [] => pure (b, .guardDropped false)
    | saved :: rest => do
      let c ← b.core.issue (.restore saved)
      pure ({ b with core := c, guards := rest }, .guardDropped true)
  | .chooseTable choice =>
    match choice.resolve with
    | .error e => pure (b, .failed e)
    | .ok t => pure ({ b with table := some t }, .table t)
  | .load =>
    match b.table with
    | none => pure (b, .missing "table")
    | some t => do
      let (c, result) ← b.core.load t
      pure (b.withCore c, ofResult .load result)
  | .readBack count => do
    let (c, s) ← Snapshot.ofCore b.core count
    pure (b.withCore c, snapshotReply s b.table)
  | .setThreshold level => pure ({ b with log := b.log.setThreshold level }, .done)
  | .boot config => do
    let (c, p, l) ← Protection.establish config b.core b.log
    pure ({ b with core := c, protection := some p, log := l }, .booted p)
  | .log => pure (b, .entries b.log.entries)
  | .listing => b.withProtection fun p => pure (b, .listing p.listing?)
  | .dump => b.withProtection fun p => do
    let (c, s) ← Protection.dump b.core
    pure (b.withCore c, snapshotReply s p.table)
  | .inspect => b.withProtection fun p => pure (b, .text (Inspect.protection p))
  | .protectedWrite a payload => b.withProtection fun p => b.writeThrough p.writer a payload
  | .newWriter limit active =>
    pure ({ b with writer := some ⟨limit, active⟩ }, .writer ⟨limit, active⟩)
  | .takeWriter => b.withProtection fun p =>
    pure ({ b with writer := some p.writer }, .writer p.writer)
  | .writerWrite a payload => b.withWriter fun w => b.writeThrough w a payload

/-- A reply, with the operations of its command and the state of the core after it. -/
structure Report where
  reply : Reply
  ops : List BusOp
  control : UInt32
  interruptsMasked : Bool
  faults : UInt32
  unmaskedStores : UInt32

def report (before after : Core) (reply : Reply) : Report where
  reply
  ops := after.trace.toList.drop before.trace.size
  control := after.control
  interruptsMasked := after.interruptsMasked
  faults := after.faults
  unmaskedStores := after.unmaskedStores

/-- The reports in order; after an `Overrun` nothing is tried any more. -/
def run (b : Bench) : List Command → List (Except Overrun Report)
  | [] => []
  | command :: rest =>
    match b.step command with
    | .error o => [.error o]
    | .ok (b', reply) => .ok (report b.core b'.core reply) :: b'.run rest

end Bench
end CodeGuard
