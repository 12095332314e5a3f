import CodeGuard.Proofs.Loading
import CodeGuard.Proofs.Storing

/-!
# CodeGuard.Proofs.Patching

What a request to the writer does.

* `Image.patch`: the request on a plain array of bytes, where nothing is locked.
* `Core.writeUnlocked_eq_ok`: one window in which the unit is off. Memory and trace apart, the core
  is as it was.
* `Writer.write_of_active`, `Writer.write_of_inactive`: through the window or without it, the
  request has the answer that it has on the plain array, and leaves the same bytes.
* `Core.runAll`: calls one after the other.
-/

namespace CodeGuard

/-! ## Requests on a plain array -/

namespace Image

/-- A request on an array of bytes of which those under `limit` are the image. It is refused if it
starts or reaches past the image. What would come after the last byte is not stored, and the
request fails then. -/
def patch (limit : UInt32) (bytes : Array UInt8) (a : UInt32) (data : List UInt8) :
    Array UInt8 × Except WriteError Unit :=
  if limit.toNat ≤ a.toNat ∨ limit.toNat < a.toNat + data.length then
    (bytes, .error (.outOfBounds a data.length))
  else if data = [] then
    (bytes, .ok ())
  else if a.toNat + data.length ≤ bytes.size then
    (overlay bytes a.toNat data, .ok ())
  else
    (overlay bytes a.toNat data, .error (.fault .invalidAddress))

/-- The request is not refused, and there is something to store. -/
def Takes (limit a : UInt32) (data : List UInt8) : Prop :=
  data ≠ [] ∧ a.toNat + data.length ≤ limit.toNat

instance (limit a : UInt32) (data : List UInt8) : Decidable (Takes limit a data) := by
  unfold Takes
  infer_instance

variable {limit a : UInt32} {data : List UInt8}

theorem patch_of_takes (h : Takes limit a data) (bytes : Array UInt8) :
    patch limit bytes a data = (overlay bytes a.toNat data,
      (Core.storeResult bytes.size a data.length).mapError .fault) := by
  obtain ⟨hne, hfit⟩ := h
  have hpos := List.length_pos_of_ne_nil hne
  rw [patch, if_neg (by omega), if_neg hne, Core.storeResult]
  by_cases hmem : a.toNat + data.length ≤ bytes.size
  · rw [if_pos hmem, if_pos (.inr hmem)]
    rfl
  · rw [if_neg hmem, if_neg (by omega)]
    rfl

theorem patch_of_not_takes (h : ¬ Takes limit a data) (bytes : Array UInt8) :
    (patch limit bytes a data).1 = bytes := by
  by_cases hout : limit.toNat ≤ a.toNat ∨ limit.toNat < a.toNat + data.length
  · rw [patch, if_pos hout]
  · have hnil : data = [] := Classical.byContradiction fun hne => h ⟨hne, by omega⟩
    rw [patch, if_neg hout, if_pos hnil]

end Image

/-! ## The window -/

namespace Core

variable {c : Core} {a : UInt32} {data : List UInt8}

/-- Interrupts and then the unit go off, and after `ops` both come back as they were. -/
def windowOps (control primask : UInt32) (ops : List BusOp) : List BusOp :=
  [.mask, .memoryBarrier, .setControl ControlWord.disabled] ++ ops ++
    [.setControl control, .syncBarrier, .fetchBarrier, .restore primask]

/-- `c` with interrupts masked and the unit off. -/
def opened (c : Core) : Core :=
  { c with
    control := ControlWord.disabled
    primask := 1
    trace := c.trace ++ #[.mask, .memoryBarrier, .setControl ControlWord.disabled] }

/-- `c` with the unit and interrupts as they were before. -/
def closed (c : Core) (control primask : UInt32) : Core :=
  { c with
    control
    primask
    trace := c.trace ++ #[.setControl control, .syncBarrier, .fetchBarrier, .restore primask] }

/-- `c` after `data` was stored from `a` on within a window. -/
def patched (c : Core) (a : UInt32) (data : List UInt8) : Core :=
  { c with
    memory := overlay c.memory a.toNat data
    trace := c.trace ++
      (windowOps c.control c.primask (storeOps a (c.landing a data))).toArray }

@[simp] theorem interruptsMasked_opened : c.opened.interruptsMasked = true := by
  simp [interruptsMasked, opened, masksInterrupts]

/-- Interrupts are masked in between, so the stores are not counted. -/
theorem closed_stored_opened (a : UInt32) (data : List UInt8) :
    (c.opened.stored a data).closed c.control c.primask = c.patched a data := by
  have hland : c.opened.landing a data = c.landing a data := rfl
  simp [closed, stored, hland]
  simp [opened, patched, windowOps]

theorem writable_of_disabled (h : c.enabled = false) (x : UInt32) : c.Writable x := by
  refine ⟨.all, ?_, rfl⟩
  rw [access, if_neg (by simp [h])]

theorem writeUnlocked_eq_ok (hon : c.enabled = true) (hsize : a.toNat + data.length < UInt32.size) :
    c.writeUnlocked a data =
      .ok (c.patched a data, (storeResult c.memory.size a data.length).mapError .fault) := by
  have hslice := writeSlice_eq_ok data (c := c.opened) hsize
    (fun x _ _ => writable_of_disabled rfl x)
  have hopen : c.issueAll [.mask, .memoryBarrier, .setControl ControlWord.disabled] =
      .ok c.opened := issueAll_open
  have hclose : (c.opened.stored a data).issueAll
      [.setControl c.control, .syncBarrier, .fetchBarrier, .restore c.primask] =
      .ok (c.patched a data) := by
    rw [issueAll_close, ← closed_stored_opened]
    rfl
  rw [writeUnlocked, if_pos hon]
  simp only [hopen, hslice, hclose, bind, Except.bind, pure, Except.pure]
  rfl

end Core

/-! ## Requests to a writer -/

namespace Writer

open Image

variable {w : Writer} {c : Core}

theorem write_of_not_takes {a : UInt32} {data : List UInt8} (h : ¬ Takes w.limit a data) :
    w.write c a data = .ok (c, (patch w.limit c.memory a data).2) := by
  by_cases hadm : w.Admits a data.length
  · have hnil : data = [] := Classical.byContradiction fun hne => h ⟨hne, hadm.2⟩
    rw [write, if_pos hadm, if_pos hnil, patch, if_neg, if_pos hnil]
    have := hadm.1
    have := hadm.2
    omega
  · rw [write, if_neg hadm, patch, if_pos]
    rw [Admits] at hadm
    omega

theorem admits_of_takes {a : UInt32} {data : List UInt8} (h : Takes w.limit a data) :
    w.Admits a data.length := by
  have hpos := List.length_pos_of_ne_nil h.1
  have hfit := h.2
  exact ⟨by omega, hfit⟩

/-- An active writer unlocks the unit for what it takes. -/
theorem write_of_active (hactive : w.active = true) (hon : c.enabled = true) (a : UInt32)
    (data : List UInt8) :
    w.write c a data = .ok (if Takes w.limit a data then c.patched a data else c,
      (patch w.limit c.memory a data).2) := by
  by_cases h : Takes w.limit a data
  · have hsize : a.toNat + data.length < UInt32.size :=
      Nat.lt_of_le_of_lt h.2 w.limit.toNat_lt_size
    rw [write, if_pos (admits_of_takes h), if_neg h.1, if_pos hactive,
      Core.writeUnlocked_eq_ok hon hsize, if_pos h, patch_of_takes h]
  · rw [write_of_not_takes h, if_neg h]

/-- An inactive writer stores what it takes as privileged code does. -/
theorem write_of_inactive (hactive : w.active = false) (hw : ∀ x, x < w.limit → c.Writable x)
    (a : UInt32) (data : List UInt8) :
    w.write c a data = .ok (if Takes w.limit a data then c.stored a data else c,
      (patch w.limit c.memory a data).2) := by
  by_cases h : Takes w.limit a data
  · have hfit := h.2
    have hsize : a.toNat + data.length < UInt32.size :=
      Nat.lt_of_le_of_lt hfit w.limit.toNat_lt_size
    have hslice := Core.writeSlice_eq_ok data hsize
      (fun x _ hx => hw x (UInt32.lt_iff_toNat_lt.mpr (by omega)))
    rw [write, if_pos (admits_of_takes h), if_neg h.1, if_neg (by simp [hactive]), hslice,
      if_pos h, patch_of_takes h]
    rfl
  · rw [write_of_not_takes h, if_neg h]

end Writer

/-! ## Runs -/

namespace Core

section Runs

variable {α β : Type} (call : Core → α → Except Overrun (Core × β))

/-- Calls one after the other, with the answer of each. -/
def runAll (c : Core) : List α → Except Overrun (Core × List β)
  | [] => .ok (c, [])
  | e :: rest =>
    match call c e with
    | .error o => .error o
    | .ok (c', b) =>
      match runAll c' rest with
      | .error o => .error o
      | .ok (c'', bs) => .ok (c'', b :: bs)

variable {call}

theorem runAll_cons {c c' c'' : Core} {e : α} {b : β} {rest : List α} {bs : List β}
    (hcall : call c e = .ok (c', b)) (hrest : runAll call c' rest = .ok (c'', bs)) :
    runAll call c (e :: rest) = .ok (c'', b :: bs) := by
  simp only [runAll, hcall, hrest]

end Runs

end Core
end CodeGuard
