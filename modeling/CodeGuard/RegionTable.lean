import CodeGuard.Slot

/-!
# CodeGuard.RegionTable

The regions of one boot, in the order of their numbers: the background as region 0, the code
regions, and the guard above them all. A higher region wins where two overlap.

* `RegionTable.build`: a table that protects the blocks of a layout.
* `RegionTable.unprotected`: a table without code regions, whose background may be executed.
-/

namespace CodeGuard

structure RegionTable where
  background : Slot
  code : List Slot
  guard : Slot
  codeEnd : UInt32
  deriving DecidableEq

namespace RegionTable

/-- Code slots with ascending numbers, the first of them `id`. -/
def codeSlots : (id : Nat) → List Block → Except Error (List Slot)
  | _, [] => .ok []
  | id, b :: rest =>
    match Slot.ofBlock (UInt8.ofNat id) b with
    | .error e => .error e
    | .ok slot =>
      match codeSlots (id + 1) rest with
      | .error e => .error e
      | .ok slots => .ok (slot :: slots)

def assemble (l : Layout) (codeEnd : UInt32) (config : Config) (executableBackground : Bool) :
    Except Error RegionTable :=
  if Limits.maxRegions < Config.regionsNeeded l.length then
    .error .tooManyRegions
  else
    match codeSlots 1 l.blocks with
    | .error e => .error e
    | .ok code =>
      match Slot.ofBackground config.background executableBackground with
      | .error e => .error e
      | .ok background =>
        match Slot.ofGuard (UInt8.ofNat (l.length + 1)) codeEnd config.guardSize with
        | .error e => .error e
        | .ok guard => .ok ⟨background, code, guard, codeEnd⟩

/-- The guard goes to the first address at or after `codeEnd` that it fits. -/
def build (l : Layout) (codeEnd : UInt32) (config : Config) : Except Error RegionTable :=
  assemble l codeEnd config false

def unprotected (codeEnd : UInt32) (config : Config) : Except Error RegionTable :=
  assemble .empty codeEnd config true

def slots (t : RegionTable) : List Slot :=
  t.background :: (t.code ++ [t.guard])

def length (t : RegionTable) : Nat :=
  t.code.length + 2

def codeSize (t : RegionTable) : Nat :=
  t.code.foldr (fun s sum => s.consumed + sum) 0

def isUnprotected (t : RegionTable) : Bool :=
  t.background.executable

@[simp] theorem length_slots (t : RegionTable) : t.slots.length = t.length := by
  simp [slots, length]

end RegionTable
end CodeGuard
