import CodeGuard.Load
import CodeGuard.Log
import CodeGuard.Snapshot
import CodeGuard.Writer

/-!
# CodeGuard.Protection

Booting the protection of an image.

* `Draft.ofConfig`: the table for a configuration, chosen before any register is touched. If the
  image cannot be cut into regions, the table leaves the code unprotected but still usable.
* `Protection.boot`: loads the table and says what came of it, in notes.
* `Protection.establish`: the same, with the notes taken into a log.
-/

namespace CodeGuard

inductive Platform where
  | cortexM
  | simulated
  | unknown
  deriving DecidableEq

namespace Platform

def name : Platform → String
  | .cortexM => "cortex-m"
  | .simulated => "sim"
  | .unknown => "unknown"

/-- This library runs on simulated cores. -/
def current : Platform := .simulated

end Platform

structure Note where
  level : Log.Level
  text : String
  deriving DecidableEq

namespace Note

def platform : Note :=
  ⟨.debug, "platform " ++ Platform.current.name⟩

def block (b : Block) : Note :=
  ⟨.debug, "code 0x" ++ Hex.lower 8 b.base ++ " size 0x" ++ Hex.lower 1 b.size ++ " sub " ++
    toString b.eighths⟩

def shortfall (s : Shortfall) : Note :=
  ⟨.warn, "split failed, code unprotected: " ++ s.message⟩

def noTable (e : Error) : Note :=
  ⟨.error, "no protection table: " ++ e.message⟩

def loadFailed (e : LoadError) : Note :=
  ⟨.error, "programming failed: " ++ e.message⟩

def protecting (t : RegionTable) : Note :=
  ⟨.info, "code protected: " ++ toString t.codeSize ++ " bytes in " ++ toString t.code.length ++
    " regions"⟩

end Note

/-- What the configuration alone decides. -/
structure Draft where
  table : Except Error RegionTable
  /-- The table has the whole image in code slots. -/
  covers : Bool
  notes : List Note

namespace Draft

/-- Without a layout the table leaves the code unprotected. -/
def ofLayout (config : Config) (sizes : SizeTable) : Draft :=
  match Layout.cover config.codeSize.toNat config.maxCodeSlots.toNat sizes with
  | .ok l =>
    match l.check config.codeSize.toNat sizes with
    | .error e => ⟨.error e, false, []⟩
    | .ok () => ⟨RegionTable.build l config.codeSize config, true, l.blocks.map Note.block⟩
  | .error s => ⟨RegionTable.unprotected config.codeSize config, false, [.shortfall s]⟩

def ofConfig (config : Config) : Draft :=
  match config.validate with
  | .error e => ⟨.error e, false, []⟩
  | .ok () =>
    match SizeTable.reference.resubdivide config.subdivisions.toNat with
    | .error e => ⟨.error e, false, []⟩
    | .ok sizes => ofLayout config sizes

end Draft

structure Protection where
  table : Option RegionTable
  protectedSize : UInt32
  active : Bool
  deriving DecidableEq

namespace Protection

/-- The protection is active if the table covers the image and the unit took it. -/
def boot (config : Config) (c : Core) : Except Overrun (Core × Protection × List Note) :=
  let draft := Draft.ofConfig config
  let notes := Note.platform :: draft.notes
  match draft.table with
  | .error e => .ok (c, ⟨none, config.codeSize, false⟩, notes ++ [.noTable e])
  | .ok t =>
    match c.load t with
    | .error o => .error o
    | .ok (c', .error e) => .ok (c', ⟨some t, config.codeSize, false⟩, notes ++ [.loadFailed e])
    | .ok (c', .ok ()) =>
      .ok (c', ⟨some t, config.codeSize, draft.covers⟩,
        if draft.covers then notes ++ [.protecting t] else notes)

def component : String := "mpu"

def logNote (l : Log) (n : Note) : Log :=
  l.log n.level Log.bootTimestamp component [n.text]

def establish (config : Config) (c : Core) (l : Log) : Except Overrun (Core × Protection × Log) :=
  match boot config c with
  | .error o => .error o
  | .ok (c', p, notes) => .ok (c', p, notes.foldl logNote l)

def writer (p : Protection) : Writer :=
  ⟨p.protectedSize, p.active⟩

def listing? (p : Protection) : Option String :=
  p.table.map RegionTable.listing

/-- All regions that the unit claims to have, as they stand in its registers. -/
def dump (c : Core) : Except Overrun (Core × Snapshot) :=
  Snapshot.ofCore c c.regionCount

end Protection
end CodeGuard
