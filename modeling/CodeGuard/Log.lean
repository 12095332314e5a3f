import CodeGuard.Hex
import CodeGuard.RingBuffer

/-!
# CodeGuard.Log

A bounded log. Entries above its threshold are dropped; of the others the newest thirty-two are
kept.

* `Log.clip`: the text of a message given in parts, at most 128 bytes of it.
* `Log.write`, `Log.log`: take an entry in, ready or with a message to clip.
* `Log.entries`: what is kept, oldest first.
-/

namespace CodeGuard
namespace Log

abbrev maxMessage : Nat := 128

abbrev capacity : Nat := 32

/-- The clock does not run yet while booting. -/
def bootTimestamp : UInt32 := 0

inductive Level where
  | error
  | warn
  | info
  | debug
  deriving DecidableEq

namespace Level

/-- The lower, the more urgent. -/
def rank : Level → Nat
  | .error => 0
  | .warn => 1
  | .info => 2
  | .debug => 3

def name : Level → String
  | .error => "ERROR"
  | .warn => "WARN"
  | .info => "INFO"
  | .debug => "DEBUG"

def letter : Level → String
  | .error => "E"
  | .warn => "W"
  | .info => "I"
  | .debug => "D"

end Level

structure Entry where
  level : Level
  timestamp : UInt32
  component : String
  message : String
  deriving DecidableEq

def Entry.text (e : Entry) : String :=
  "[" ++ Hex.upper 8 e.timestamp.toNat ++ "] " ++ e.level.letter ++ " [" ++ e.component ++ "] " ++
    e.message

/-! ## Messages -/

/-- The longest run of first characters that takes at most `room` bytes. -/
def fit : (room : Nat) → List Char → List Char
  | _, [] => []
  | room, c :: rest => if c.utf8Size ≤ room then c :: fit (room - c.utf8Size) rest else []

def byteLength (cs : List Char) : Nat :=
  cs.foldr (fun c sum => c.utf8Size + sum) 0

/-- Each part in turn takes what it can of the room that the parts before it left. -/
def fitParts : (room : Nat) → List (List Char) → List Char
  | _, [] => []
  | room, part :: rest =>
    let kept := fit room part
    kept ++ fitParts (room - byteLength kept) rest

def clip (parts : List String) : String :=
  String.ofList (fitParts maxMessage (parts.map String.toList))

end Log

structure Log where
  ring : RingBuffer Log.Entry Log.capacity := .empty
  /-- Entries lost to newer ones; the count stays at its greatest value. -/
  overwritten : UInt32 := 0
  threshold : Log.Level := .info

namespace Log

def setThreshold (l : Log) (level : Level) : Log :=
  { l with threshold := level }

def admits (l : Log) (level : Level) : Bool :=
  decide (level.rank ≤ l.threshold.rank)

/-- One more, as long as there is a greater number. -/
def countUp (n : UInt32) : UInt32 :=
  if n = 0xFFFFFFFF then n else n + 1

def write (l : Log) (e : Entry) : Log :=
  if l.admits e.level then
    { l with
      ring := l.ring.push e
      overwritten := if l.ring.isFull then countUp l.overwritten else l.overwritten }
  else
    l

def log (l : Log) (level : Level) (timestamp : UInt32) (component : String)
    (parts : List String) : Log :=
  l.write ⟨level, timestamp, component, clip parts⟩

def length (l : Log) : Nat :=
  l.ring.size

def isEmpty (l : Log) : Bool :=
  l.length == 0

def entries (l : Log) : List Entry :=
  l.ring.toList

/-- Reads what is kept, oldest first. -/
def cursor (l : Log) : RingBuffer.Cursor Entry capacity :=
  l.ring.cursor

def latest? (l : Log) : Option Entry :=
  l.ring.latest?

def countAt (l : Log) (level : Level) : Nat :=
  l.entries.countP fun e => e.level = level

/-- An admitted entry comes last; the oldest one goes when there are too many. -/
theorem entries_write (l : Log) (e : Entry) :
    (l.write e).entries =
      if l.admits e.level then (l.entries ++ [e]).drop (l.length + 1 - capacity)
      else l.entries := by
  simp only [write, entries, length]
  split
  · exact l.ring.toList_push e
  · rfl

@[simp] theorem length_entries (l : Log) : l.entries.length = l.length :=
  l.ring.length_toList

end Log
end CodeGuard
