import CodeGuard.Writer

/-!
# CodeGuard.Proofs.Storing

What a run of stores leaves behind.

* `overlay`: bytes with others laid over them, and how it takes in one byte after the other.
* `Core.access_congr`: rights depend on the registers alone, so no store changes them.
* `Core.writeSlice_eq_ok`: where no store is refused, the bytes that there is memory for are stored
  and nothing else happens.
-/

namespace CodeGuard

/-! ## Bytes over bytes -/

/-- `bytes` with `data` in the place of those from `a` on. What would come after the last byte is
dropped. -/
def overlay (bytes : Array UInt8) (a : Nat) (data : List UInt8) : Array UInt8 :=
  Array.ofFn fun i : Fin bytes.size => if a ≤ i then data.getD (i - a) bytes[i] else bytes[i]

section Overlay

variable {bytes : Array UInt8} {a : Nat} {data : List UInt8}

@[simp] theorem size_overlay : (overlay bytes a data).size = bytes.size := by
  simp [overlay]

theorem getElem_overlay {i : Nat} (h : i < bytes.size) (h' : i < (overlay bytes a data).size) :
    (overlay bytes a data)[i] = if a ≤ i then data.getD (i - a) bytes[i] else bytes[i] := by
  simp [overlay]

@[simp] theorem overlay_nil : overlay bytes a [] = bytes := by
  apply Array.ext
  · exact size_overlay
  · intro i _ h
    simp [getElem_overlay h]

theorem overlay_of_size_le (h : bytes.size ≤ a) : overlay bytes a data = bytes := by
  apply Array.ext
  · exact size_overlay
  · intro i _ hi
    rw [getElem_overlay hi, if_neg (by omega)]

theorem overlay_setIfInBounds (v : UInt8) :
    overlay (bytes.setIfInBounds a v) (a + 1) data = overlay bytes a (v :: data) := by
  apply Array.ext
  · simp
  · intro i h _
    have hi : i < bytes.size := by simpa using h
    rw [getElem_overlay (by simpa using hi), getElem_overlay hi, Array.getElem_setIfInBounds]
    rcases Nat.lt_trichotomy i a with hlt | heq | hgt
    · rw [if_neg (by omega), if_neg (by omega), if_neg (by omega)]
    · have hsub : i - a = 0 := by omega
      rw [if_neg (by omega), if_pos heq.symm, if_pos (by omega), hsub, List.getD_cons_zero]
    · have hsub : i - a = i - (a + 1) + 1 := by omega
      rw [if_pos (show a + 1 ≤ i from hgt), if_neg (show a ≠ i by omega),
        if_pos (Nat.le_of_lt hgt), hsub, List.getD_cons_succ]

end Overlay

/-- The next address, if there is one. -/
theorem toNat_add_one {a : UInt32} (h : a.toNat + 1 < UInt32.size) :
    (a + 1).toNat = a.toNat + 1 := by
  rw [UInt32.toNat_add, UInt32.toNat_one]
  exact Nat.mod_eq_of_lt h

namespace Core

variable {c c' : Core} {a : UInt32}

/-! ## Rights between stores -/

theorem matchBelow_congr (hregions : c'.regions = c.regions) (a : UInt32) (n : Nat) :
    c'.matchBelow a n = c.matchBelow a n := by
  induction n with
  | zero => rfl
  | succ n ih => simp only [matchBelow, region, hregions, ih]

theorem access_congr (hcount : c'.regionCount = c.regionCount) (hcontrol : c'.control = c.control)
    (hregions : c'.regions = c.regions) (a : UInt32) (privileged : Bool) :
    c'.access a privileged = c.access a privileged := by
  have hmatch : c'.matchingRegion a = c.matchingRegion a := by
    rw [matchingRegion, matchBelow_congr hregions, hcount, matchingRegion]
  have hregion : c'.region = c.region := by
    funext i
    simp only [region, hregions]
  rw [access, access, hmatch, hregion, enabled, enabled, hcontrol]

/-- Privileged code may store at `a`. -/
def Writable (c : Core) (a : UInt32) : Prop :=
  ∃ rights, c.access a true = .ok rights ∧ rights.write = true

theorem Writable.congr (h : c.Writable a) (hcount : c'.regionCount = c.regionCount)
    (hcontrol : c'.control = c.control) (hregions : c'.regions = c.regions) : c'.Writable a := by
  obtain ⟨rights, hrights, hwrite⟩ := h
  exact ⟨rights, (access_congr hcount hcontrol hregions a true).trans hrights, hwrite⟩

@[simp] theorem size_memory_store (b : UInt32) (v : UInt8) :
    ((c.store b v).record (.store b v)).memory.size = c.memory.size := by
  simp [Core.store, record]

/-! ## Runs of stores -/

/-- The stores of `data` from `a` on. -/
def storeOps (a : UInt32) : List UInt8 → List BusOp
  | [] => []
  | v :: rest => .store a v :: storeOps (a + 1) rest

/-- The bytes of `data` that there is memory for, from `a` on. -/
def landing (c : Core) (a : UInt32) (data : List UInt8) : List UInt8 :=
  data.take (c.memory.size - a.toNat)

/-- `c` after `data` was stored from `a` on. -/
def stored (c : Core) (a : UInt32) (data : List UInt8) : Core :=
  { c with
    memory := overlay c.memory a.toNat data
    unmaskedStores :=
      if c.interruptsMasked then c.unmaskedStores
      else c.unmaskedStores + UInt32.ofNat (c.landing a data).length
    trace := c.trace ++ (storeOps a (c.landing a data)).toArray }

/-- What comes of `length` stores from `a` on in a memory of `size` bytes, if none is refused. -/
def storeResult (size : Nat) (a : UInt32) (length : Nat) : Except BusError Unit :=
  if length = 0 ∨ a.toNat + length ≤ size then .ok () else .error .invalidAddress

theorem landing_of_size_le (h : c.memory.size ≤ a.toNat) (data : List UInt8) :
    c.landing a data = [] := by
  simp [landing, Nat.sub_eq_zero_of_le h]

theorem landing_cons {v : UInt8} {rest : List UInt8} (h : a.toNat < c.memory.size)
    (hnext : (a + 1).toNat = a.toNat + 1) :
    c.landing a (v :: rest) =
      v :: ((c.store a v).record (.store a v)).landing (a + 1) rest := by
  have hroom : c.memory.size - a.toNat = c.memory.size - (a.toNat + 1) + 1 := by omega
  simp [landing, store, record, hnext, hroom]

@[simp] theorem stored_nil : c.stored a [] = c := by
  simp [stored, landing, storeOps]

theorem stored_of_size_le (h : c.memory.size ≤ a.toNat) (data : List UInt8) :
    c.stored a data = c := by
  simp [stored, storeOps, overlay_of_size_le h, landing_of_size_le h]

theorem stored_cons {v : UInt8} {rest : List UInt8} (h : a.toNat < c.memory.size)
    (hnext : (a + 1).toNat = a.toNat + 1) :
    ((c.store a v).record (.store a v)).stored (a + 1) rest = c.stored a (v :: rest) := by
  have hmask : ((c.store a v).record (.store a v)).interruptsMasked = c.interruptsMasked := rfl
  simp only [stored, landing_cons h hnext, storeOps, List.length_cons, hmask]
  by_cases hopen : c.interruptsMasked = true
  · simp [store, record, hnext, overlay_setIfInBounds, hopen]
  · simp [store, record, hnext, overlay_setIfInBounds, hopen, UInt32.add_assoc,
      UInt32.add_comm 1]

theorem writeByte_eq_ok (hmem : a.toNat < c.memory.size) (hw : c.Writable a) (v : UInt8) :
    c.writeByte a v = .ok ((c.store a v).record (.store a v), .ok ()) := by
  obtain ⟨rights, hrights, hwrite⟩ := hw
  simp only [writeByte, if_pos hmem, hrights, hwrite, if_true]
  rfl

theorem writeByte_of_size_le (hmem : c.memory.size ≤ a.toNat) (v : UInt8) :
    c.writeByte a v = .ok (c, .error .invalidAddress) := by
  rw [writeByte, if_neg (Nat.not_lt.mpr hmem)]

theorem storeResult_succ {size : Nat} (hmem : a.toNat < size)
    (hnext : (a + 1).toNat = a.toNat + 1) (n : Nat) :
    storeResult size (a + 1) n = storeResult size a (n + 1) := by
  have hiff : (n = 0 ∨ a.toNat + 1 + n ≤ size) ↔ (n + 1 = 0 ∨ a.toNat + (n + 1) ≤ size) := by
    omega
  simp only [storeResult, hnext, hiff]

/-- **Stores go to the end of the data or of the memory.** Where none is refused, the bytes that
there is memory for are stored, in order, and nothing else happens. -/
theorem writeSlice_eq_ok (data : List UInt8) : ∀ {c : Core} {a : UInt32},
    a.toNat + data.length < UInt32.size →
    (∀ x : UInt32, a.toNat ≤ x.toNat → x.toNat < a.toNat + data.length → c.Writable x) →
    c.writeSlice a data = .ok (c.stored a data, storeResult c.memory.size a data.length) := by
  induction data with
  | nil =>
    intro c a _ _
    rw [stored_nil, storeResult, List.length_nil, if_pos (.inl rfl)]
    rfl
  | cons v rest ih =>
    intro c a hsize hw
    rw [List.length_cons] at hsize hw ⊢
    by_cases hmem : a.toNat < c.memory.size
    · have hnext := toNat_add_one (show a.toNat + 1 < UInt32.size by omega)
      have hrest := ih (c := (c.store a v).record (.store a v)) (a := a + 1) (by omega)
        (fun x hlo hhi => (hw x (by omega) (by omega)).congr rfl rfl rfl)
      rw [stored_cons hmem hnext, size_memory_store, storeResult_succ hmem hnext] at hrest
      rw [← hrest]
      simp only [writeSlice, storeAll, writeByte_eq_ok hmem (hw a (Nat.le_refl _) (by omega))]
      rfl
    · have hle := Nat.not_lt.mp hmem
      rw [stored_of_size_le hle, storeResult, if_neg (by omega)]
      simp only [writeSlice, storeAll, writeByte_of_size_le hle]
      rfl

end Core
end CodeGuard
