import CodeGuard.Proofs.Masking
import CodeGuard.Proofs.Patching

/-!
# CodeGuard.Proofs.Effect

All that one write does, from any state of the core.

* `Core.Stores`: how a run of privileged stores ends. `Core.writeSlice_stores`: every one ends so.
* `Core.writeUnlocked_of_disabled`: with the unit off, the interrupt mask goes down and up again.
* `Writer.write_effect`: the state and the answer for each outcome of the checks.
-/

namespace CodeGuard
namespace Core

variable {c c' : Core} {a : UInt32} {data : List UInt8}

/-! ## Plain stores -/

/-- There is memory for `count` bytes from `a` on, and privileged code may store them. -/
def Open (c : Core) (a : UInt32) (count : Nat) : Prop :=
  ∀ x : UInt32, a.toNat ≤ x.toNat → x.toNat < a.toNat + count →
    x.toNat < c.memory.size ∧ c.Writable x

/-- How privileged stores of `data` from `a` on end: all are made, or those before the first that
has no memory to go to, or those before the first that is refused. A refused one is counted. -/
inductive Stores (c : Core) (a : UInt32) (data : List UInt8) : Core → Except BusError Unit → Prop where
  | all : c.Open a data.length → Stores c a data (c.stored a data) (.ok ())
  | unmapped {k : Nat} : k < data.length → c.Open a k → c.memory.size ≤ a.toNat + k →
      Stores c a data (c.stored a (data.take k)) (.error .invalidAddress)
  | refused {k : Nat} {x : UInt32} : k < data.length → c.Open a k → x.toNat = a.toNat + k →
      x.toNat < c.memory.size → ¬ c.Writable x →
      Stores c a data { c.stored a (data.take k) with faults := c.faults + 1 }
        (.error .accessViolation)

theorem open_zero (c : Core) (a : UInt32) : c.Open a 0 :=
  fun _ _ _ => by omega

theorem Open.cons {v : UInt8} {k : Nat} (hmem : a.toNat < c.memory.size) (hw : c.Writable a)
    (hnext : (a + 1).toNat = a.toNat + 1)
    (h : ((c.store a v).record (.store a v)).Open (a + 1) k) : c.Open a (k + 1) := by
  intro x hlo hhi
  by_cases hx : x.toNat = a.toNat
  · rw [UInt32.toNat_inj.mp hx]
    exact ⟨hmem, hw⟩
  · obtain ⟨hsize, hwritable⟩ := h x (by omega) (by omega)
    rw [size_memory_store] at hsize
    exact ⟨hsize, hwritable.congr rfl rfl rfl⟩

theorem Stores.cons {v : UInt8} {rest : List UInt8} {result : Except BusError Unit}
    (hmem : a.toNat < c.memory.size) (hw : c.Writable a) (hnext : (a + 1).toNat = a.toNat + 1)
    (h : ((c.store a v).record (.store a v)).Stores (a + 1) rest c' result) :
    c.Stores a (v :: rest) c' result := by
  cases h with
  | all hopen =>
    rw [stored_cons hmem hnext]
    exact .all (hopen.cons hmem hw hnext)
  | @unmapped k hk hopen hsize =>
    rw [stored_cons hmem hnext]
    rw [size_memory_store] at hsize
    exact .unmapped (k := k + 1) (Nat.succ_lt_succ hk) (hopen.cons hmem hw hnext) (by omega)
  | @refused k x hk hopen hx hsize hrefused =>
    rw [stored_cons hmem hnext]
    rw [size_memory_store] at hsize
    exact .refused (k := k + 1) (Nat.succ_lt_succ hk) (hopen.cons hmem hw hnext) (by omega) hsize
      fun hwritable => hrefused (hwritable.congr rfl rfl rfl)

theorem writeByte_of_not_writable (h16 : c.regionCount.toNat ≤ 16) (hmem : a.toNat < c.memory.size)
    (hw : ¬ c.Writable a) (v : UInt8) :
    c.writeByte a v = .ok ({ c with faults := c.faults + 1 }, .error .accessViolation) := by
  obtain ⟨rights, hrights⟩ := exists_access h16 a true
  have hwrite : rights.write ≠ true := fun hwrite => hw ⟨rights, hrights, hwrite⟩
  rw [writeByte, if_pos hmem, hrights]
  simp only [if_neg hwrite]

/-- Stores go on until one fails. -/
theorem writeSlice_stores (data : List UInt8) : ∀ {c : Core} {a : UInt32},
    c.regionCount.toNat ≤ 16 → a.toNat + data.length < UInt32.size →
    ∃ c' result, c.writeSlice a data = .ok (c', result) ∧ c.Stores a data c' result := by
  induction data with
  | nil =>
    intro c a _ _
    have hnone : c.Stores a [] (c.stored a []) (.ok ()) := .all (c.open_zero a)
    rw [stored_nil] at hnone
    exact ⟨c, .ok (), rfl, hnone⟩
  | cons v rest ih =>
    intro c a h16 hsize
    have hpos : 0 < (v :: rest).length := Nat.zero_lt_succ _
    rw [List.length_cons] at hsize
    by_cases hmem : a.toNat < c.memory.size
    · by_cases hw : c.Writable a
      · have hnext := toNat_add_one (show a.toNat + 1 < UInt32.size by omega)
        obtain ⟨c', result, hrest, hstores⟩ :=
          ih (c := (c.store a v).record (.store a v)) (a := a + 1) h16 (by omega)
        refine ⟨c', result, ?_, hstores.cons hmem hw hnext⟩
        simp only [writeSlice, storeAll, writeByte_eq_ok hmem hw]
        exact hrest
      · refine ⟨{ c with faults := c.faults + 1 }, .error .accessViolation, ?_, ?_⟩
        · simp only [writeSlice, storeAll, writeByte_of_not_writable h16 hmem hw]
          rfl
        · have hfirst := Stores.refused hpos (c.open_zero a) (Nat.add_zero _).symm hmem hw
          rwa [List.take_zero, stored_nil] at hfirst
    · have hle := Nat.not_lt.mp hmem
      refine ⟨c, .error .invalidAddress, ?_, ?_⟩
      · simp only [writeSlice, storeAll, writeByte_of_size_le hle]
        rfl
      · have hfirst := Stores.unmapped hpos (c.open_zero a) hle
        rwa [List.take_zero, stored_nil] at hfirst

/-! ## The window -/

theorem writeUnlocked_of_disabled (hoff : c.enabled = false) (a : UInt32) (data : List UInt8) :
    c.writeUnlocked a data =
      .ok ({ c with trace := c.trace ++ #[.mask, .restore c.primask] }, .error .nestedUnlock) := by
  rw [writeUnlocked, if_neg (by simp [hoff])]
  rfl

theorem patched_eq (c : Core) (a : UInt32) (data : List UInt8) :
    c.patched a data = { c with
      memory := overlay c.memory a.toNat data
      trace := c.trace ++ #[.mask, .memoryBarrier, .setControl 0] ++
        (storeOps a (data.take (c.memory.size - a.toNat))).toArray ++
        #[.setControl c.control, .syncBarrier, .fetchBarrier, .restore c.primask] } := by
  simp [patched, windowOps, landing, ControlWord.disabled]

theorem mapError_storeResult {size n : Nat} (hpos : 0 < n) :
    (storeResult size a n).mapError WriteError.fault =
      if a.toNat + n ≤ size then .ok () else .error (.fault .invalidAddress) := by
  have hne : n ≠ 0 := Nat.ne_of_gt hpos
  simp only [storeResult, hne, false_or]
  split <;> rfl

end Core

namespace Writer

/-- **One write, from any state.** A request that starts or reaches past the limit, or is empty,
leaves the core as it is. With the unit off, an active writer refuses and leaves two operations on
the interrupt mask in the trace. With the unit on, it stores up to the end of the data or of the
memory, and apart from the bytes and the trace the core is as it was. An inactive writer makes plain
privileged stores. -/
theorem write_effect (w : Writer) {c : Core} (h16 : c.regionCount.toNat ≤ 16) (a : UInt32)
    (data : List UInt8) :
    (w.limit.toNat ≤ a.toNat ∨ w.limit.toNat < a.toNat + data.length →
      w.write c a data = .ok (c, .error (.outOfBounds a data.length))) ∧
    (a.toNat < w.limit.toNat → a.toNat + data.length ≤ w.limit.toNat →
      (data = [] → w.write c a data = .ok (c, .ok ())) ∧
      (data ≠ [] → w.active = true → c.enabled = false →
        w.write c a data =
          .ok ({ c with trace := c.trace ++ #[.mask, .restore c.primask] }, .error .nestedUnlock)) ∧
      (data ≠ [] → w.active = true → c.enabled = true →
        w.write c a data =
          .ok ({ c with
              memory := overlay c.memory a.toNat data
              trace := c.trace ++ #[.mask, .memoryBarrier, .setControl 0] ++
                (Core.storeOps a (data.take (c.memory.size - a.toNat))).toArray ++
                #[.setControl c.control, .syncBarrier, .fetchBarrier, .restore c.primask] },
            if a.toNat + data.length ≤ c.memory.size then .ok ()
            else .error (.fault .invalidAddress))) ∧
      (data ≠ [] → w.active = false →
        ∃ c' result, w.write c a data = .ok (c', result.mapError .fault) ∧
          c.Stores a data c' result)) := by
  refine ⟨fun hout => ?_, fun hlo hhi => ?_⟩
  · have hnot : ¬ w.Admits a data.length := by
      rw [Admits]
      omega
    rw [write, if_neg hnot]
  have hadm : w.Admits a data.length := ⟨hlo, hhi⟩
  have hsize : a.toNat + data.length < UInt32.size :=
    Nat.lt_of_le_of_lt hhi w.limit.toNat_lt_size
  refine ⟨fun hnil => ?_, fun hne hactive hoff => ?_, fun hne hactive hon => ?_,
    fun hne hactive => ?_⟩
  · rw [write, if_pos hadm, if_pos hnil]
  · rw [write, if_pos hadm, if_neg hne, if_pos hactive, Core.writeUnlocked_of_disabled hoff]
  · have hpos := List.length_pos_of_ne_nil hne
    rw [write, if_pos hadm, if_neg hne, if_pos hactive, Core.writeUnlocked_eq_ok hon hsize,
      Core.patched_eq, Core.mapError_storeResult hpos]
  · obtain ⟨c', result, hslice, hstores⟩ := Core.writeSlice_stores data h16 hsize
    refine ⟨c', result, ?_, hstores⟩
    rw [write, if_pos hadm, if_neg hne, if_neg (by simp [hactive]), hslice]
    rfl

/-- Two of three bytes have memory. Neither control nor mask word is one that the library sets. -/
theorem write_effect_cut :
    ((⟨128, true⟩ : Writer).write { Core.reset 8 64 with control := 5, primask := 0x80000002 } 62
        [1, 2, 3]).map (fun r => (r.1.memorySlice 60 8, r.1.trace.toList, r.2)) =
      .ok ([0xFF, 0xFF, 1, 2],
        [.mask, .memoryBarrier, .setControl 0, .store 62 1, .store 63 2, .setControl 5, .syncBarrier,
          .fetchBarrier, .restore 0x80000002],
        .error (.fault .invalidAddress)) := by
  obtain ⟨-, hin⟩ := write_effect ⟨128, true⟩
    (c := { Core.reset 8 64 with control := 5, primask := 0x80000002 }) (by decide) 62 [1, 2, 3]
  obtain ⟨-, -, hon, -⟩ := hin (by decide) (by decide)
  rw [hon (by decide) rfl (by decide)]
  rfl

end Writer
end CodeGuard
