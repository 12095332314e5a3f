import CodeGuard.Proofs.Effect
import CodeGuard.Proofs.Faulting
import CodeGuard.Proofs.Nesting
import CodeGuard.Proofs.Registers

/-!
# CodeGuard.Proofs.Calling

Registers and memory under any run of calls on a core.

* `Core.Call.perform`: a call, made as the bench makes it.
* `Core.MemoryStep`: what a single call does to memory.
* `Core.AltersOnly`: the addresses where memory may differ after a call.
* `Core.Unfolds`: other calls are made of single ones.
* `Core.Files.perform`: one call keeps what the registers hold.
* `Core.runAll_registers`: a run of calls, and whatever call comes after it.
-/

namespace CodeGuard
namespace Core

open BusOp

variable {c c' : Core} {op : BusOp} {ops : List BusOp} {n : UInt8} {m : Nat}

/-! ## Calls -/

/-- A call on a core. Of the operations only the store is left out, which goes past the access
rights. -/
inductive Call where
  | issue (op : BusOp) (spares : op.SparesMemory)
  | forceControl (value : UInt32)
  | registers
  | region (i : UInt8)
  | probe (addresses : List UInt32)
  | read (address : UInt32)
  | write (address : UInt32) (value : UInt8)
  | writeSlice (address : UInt32) (data : List UInt8)
  | load (t : RegionTable)
  | readBack (count : UInt8)

namespace Call

/-- The command that makes the call on a bench. -/
def command : Call → Command
  | .issue op _ => .issue op
  | .forceControl value => .forceControl value
  | .registers => .registers
  | .region i => .region i
  | .probe addresses => .probe addresses
  | .read a => .read a
  | .write a v => .write a v
  | .writeSlice a data => .writeSlice a data
  | .load _ => .load
  | .readBack count => .readBack count

/-- The table that the command takes from the bench. -/
def table? : Call → Option RegionTable
  | .load t => some t
  | _ => none

def perform (c : Core) (call : Call) : Except Overrun (Core × Reply) :=
  (Bench.step { core := c, table := call.table? } call.command).map fun (b, reply) =>
    (b.core, reply)

/-- The operations that a call issues on the regions of a unit that has `n` of them. -/
def regionOps (n : UInt8) : Call → List BusOp
  | .issue op _ => [op]
  | .load t => if t.length ≤ n.toNat then t.regionOps n else []
  | .readBack count => selectOps 0 (min count.toNat n.toNat)
  | _ => []

/-- The addresses that the call means to store to. -/
def targets : Call → List UInt32
  | .write a _ => [a]
  | .writeSlice a data => (List.range data.length).map (addressAt a)
  | _ => []

/-- The call is not made of others. -/
def Single : Call → Prop
  | .writeSlice _ _ | .load _ | .readBack _ => False
  | _ => True

variable {call : Call}

theorem targets_writeSlice_cons (a : UInt32) (v : UInt8) (rest : List UInt8) :
    targets (.writeSlice a (v :: rest)) = [a] ++ targets (.writeSlice (a + 1) rest) := by
  rw [targets, targets, List.length_cons, List.range_succ_eq_map, List.map_cons, List.map_map,
    addressAt_zero]
  exact congrArg (a :: ·) (List.map_congr_left fun i _ => (addressAt_succ a i).symm)

theorem perform_eq_ok {b : Bench} {reply : Reply}
    (h : Bench.step { core := c, table := call.table? } call.command = .ok (b, reply)) :
    call.perform c = .ok (b.core, reply) := by
  rw [perform, h]
  rfl

theorem perform_issue {spares : op.SparesMemory} (h : c.issue op = .ok c') :
    perform c (.issue op spares) = .ok (c', .done) :=
  perform_eq_ok (b := { core := c' }) (by rw [command, Bench.step, h]; rfl)

theorem perform_write {a : UInt32} {v : UInt8} {result : Except BusError Unit}
    (h : c.writeByte a v = .ok (c', result)) :
    perform c (.write a v) = .ok (c', Bench.ofResult .bus result) :=
  perform_eq_ok (b := { core := c' }) (by rw [command, Bench.step, h]; rfl)

theorem perform_writeSlice {a : UInt32} {data : List UInt8} {result : Except BusError Unit}
    (h : c.writeSlice a data = .ok (c', result)) :
    perform c (.writeSlice a data) = .ok (c', Bench.ofResult .bus result) :=
  perform_eq_ok (b := { core := c' }) (by rw [command, Bench.step, h]; rfl)

theorem perform_load {t : RegionTable} {result : Except LoadError Unit}
    (h : c.load t = .ok (c', result)) :
    perform c (.load t) = .ok (c', Bench.ofResult .load result) :=
  perform_eq_ok (b := { core := c', table := some t }) (by
    simp only [command, table?, Bench.step, h]
    rfl)

theorem perform_readBack {count : UInt8} {s : Snapshot}
    (h : Snapshot.ofCore c count = .ok (c', s)) :
    perform c (.readBack count) = .ok (c', Bench.snapshotReply s none) :=
  perform_eq_ok (b := { core := c' }) (by rw [command, Bench.step, h]; rfl)

end Call

/-- What one single call does to memory. A write that privileged code may make stores its byte; all
else keeps memory, and no other write succeeds. -/
inductive MemoryStep (c : Core) : Call → Reply → Core → Prop where
  | kept {c' : Core} {call : Call} {reply : Reply} : c'.memory = c.memory →
      (∀ a v, call = .write a v → reply ≠ .done) → MemoryStep c call reply c'
  | stored {c' : Core} {a : UInt32} {v : UInt8} : a.toNat < c.memory.size → c.Writable a →
      c'.memory = c.memory.setIfInBounds a.toNat v → MemoryStep c (.write a v) .done c'

theorem MemoryStep.exists_write {call : Call} {reply : Reply} (h : c.MemoryStep call reply c')
    {x : Nat} (hx : c'.memory[x]? ≠ c.memory[x]?) :
    ∃ a v, call = .write a v ∧ reply = .done ∧ a.toNat = x := by
  cases h with
  | kept hmemory => exact absurd (by rw [hmemory]) hx
  | @stored _ a v _ _ hmemory =>
    refine ⟨a, v, rfl, rfl, Classical.byContradiction fun hne => hx ?_⟩
    rw [hmemory, Array.getElem?_setIfInBounds_ne hne]

theorem MemoryStep.granted {a : UInt32} {v : UInt8} (h : c.MemoryStep (.write a v) .done c') :
    a.toNat < c.memory.size ∧ c.Writable a ∧ c'.memory = c.memory.setIfInBounds a.toNat v := by
  cases h with
  | kept _ hdone => exact absurd rfl (hdone a v rfl)
  | stored hmem hw hmemory => exact ⟨hmem, hw, hmemory⟩

/-- Memory differs at these addresses alone, and there only where privileged code may write. -/
def AltersOnly (c : Core) (addresses : List UInt32) (c' : Core) : Prop :=
  ∀ x, c'.memory[x]? ≠ c.memory[x]? → ∃ a ∈ addresses, a.toNat = x ∧ c.Writable a

namespace AltersOnly

variable {c₁ : Core} {as bs : List UInt32}

theorem of_memory_eq (as : List UInt32) (h : c'.memory = c.memory) : c.AltersOnly as c' :=
  fun _ hx => absurd (by rw [h]) hx

theorem memory_eq (h : c.AltersOnly [] c') : c'.memory = c.memory := by
  refine Array.ext_getElem? fun x => Classical.byContradiction fun hx => ?_
  obtain ⟨_, hmem, -⟩ := h x hx
  exact absurd hmem List.not_mem_nil

theorem append (h : c.AltersOnly as c₁) (hrights : ∀ a, c₁.Writable a → c.Writable a)
    (h' : c₁.AltersOnly bs c') : c.AltersOnly (as ++ bs) c' := by
  intro x hx
  by_cases hfirst : c₁.memory[x]? = c.memory[x]?
  · rw [← hfirst] at hx
    obtain ⟨b, hb, hbx, hw⟩ := h' x hx
    exact ⟨b, List.mem_append_right _ hb, hbx, hrights b hw⟩
  · obtain ⟨a, ha, hax, hw⟩ := h x hfirst
    exact ⟨a, List.mem_append_left _ ha, hax, hw⟩

end AltersOnly

theorem MemoryStep.altersOnly {call : Call} {reply : Reply} (h : c.MemoryStep call reply c') :
    c.AltersOnly call.targets c' := by
  intro x hx
  obtain ⟨a, v, rfl, rfl, ha⟩ := h.exists_write hx
  exact ⟨a, List.mem_singleton_self a, ha, h.granted.2.1⟩

/-- Single calls lead from the one core to the other. -/
def Unfolds (c c' : Core) : Prop :=
  ∃ calls replies, (∀ call ∈ calls, call.Single) ∧ runAll Call.perform c calls = .ok (c', replies)

variable {call : Call} {reply : Reply}

theorem Unfolds.refl (c : Core) : c.Unfolds c :=
  ⟨[], [], fun _ hmem => absurd hmem List.not_mem_nil, rfl⟩

theorem Unfolds.cons {c₁ : Core} (call : Call) (hsingle : call.Single)
    (hcall : call.perform c = .ok (c₁, reply)) (h : c₁.Unfolds c') : c.Unfolds c' := by
  obtain ⟨calls, replies, hsingles, hrun⟩ := h
  exact ⟨call :: calls, reply :: replies, List.forall_mem_cons.mpr ⟨hsingle, hsingles⟩,
    runAll_cons hcall hrun⟩

theorem unfolds_issueAll (ops : List BusOp) : ∀ {c : Core}, (∀ op ∈ ops, op.SparesMemory) →
    c.issueAll ops = .ok c' → c.Unfolds c' := by
  induction ops with
  | nil =>
    intro c _ h
    cases h
    exact .refl _
  | cons op rest ih =>
    intro c hspares h
    obtain ⟨hop, hrest⟩ := List.forall_mem_cons.mp hspares
    rw [issueAll] at h
    split at h
    · cases h
    · rename_i c₁ hissue
      exact .cons (.issue op hop) trivial (Call.perform_issue hissue) (ih hrest h)

theorem sparesMemory_loadOps (t : RegionTable) (primask : UInt32) :
    ∀ op ∈ t.loadOps n primask, op.SparesMemory := by
  intro op hop
  rw [t.loadOps_eq, List.mem_append, List.mem_append] at hop
  rcases hop with (hop | hop) | hop
  · simp only [List.mem_cons, List.not_mem_nil, or_false] at hop
    rcases hop with rfl | rfl | rfl <;> trivial
  · exact (t.onRegions_regionOps n op hop).sparesMemory
  · simp only [List.mem_cons, List.not_mem_nil, or_false] at hop
    rcases hop with rfl | rfl | rfl | rfl <;> trivial

/-! ## Each call -/

namespace Files

theorem writeByte (h16 : n.toNat ≤ 16) (h : Files n m ops c) (a : UInt32) (v : UInt8) :
    ∃ c' result, c.writeByte a v = .ok (c', result) ∧ Files n m ops c' ∧
      c.MemoryStep (.write a v) (Bench.ofResult .bus result) c' ∧
      ∀ x, c'.Writable x → c.Writable x := by
  by_cases hmem : a.toNat < c.memory.size
  · by_cases hw : c.Writable a
    · refine ⟨_, _, writeByte_eq_ok hmem hw v, ?_, .stored hmem hw rfl, ?_⟩
      · exact h.congr rfl (size_memory_store a v) rfl rfl
      · exact fun x hx => hx.congr rfl rfl rfl
    · refine ⟨_, _, writeByte_of_not_writable (h.regionCount_le h16) hmem hw v, ?_, ?_, ?_⟩
      · exact h.congr rfl rfl rfl rfl
      · exact .kept rfl fun _ _ _ hdone => Reply.noConfusion hdone
      · exact fun x hx => hx.congr rfl rfl rfl
  · refine ⟨_, _, writeByte_of_size_le (Nat.not_lt.mp hmem) v, h, ?_, fun _ hx => hx⟩
    exact .kept rfl fun _ _ _ hdone => Reply.noConfusion hdone

theorem idle (call : Call) (h : Files n m ops c) (hops : call.regionOps n = []) :
    Files n m (ops ++ call.regionOps n) c := by
  rwa [hops, List.append_nil]

/-- A call that only looks. -/
theorem look (h : Files n m ops c) (hops : call.regionOps n = [])
    (hwrite : ∀ a v, call ≠ .write a v) {b : Bench} (hcore : b.core = c)
    (hstep : Bench.step { core := c, table := call.table? } call.command = .ok (b, reply)) :
    ∃ c' reply, call.perform c = .ok (c', reply) ∧ Files n m (ops ++ call.regionOps n) c' ∧
      c.MemoryStep call reply c' := by
  refine ⟨b.core, reply, Call.perform_eq_ok hstep, ?_, .kept (by rw [hcore]) fun a v heq => ?_⟩
  · rw [hcore]
    exact h.idle call hops
  · exact absurd heq (hwrite a v)

theorem perform_single (h16 : n.toNat ≤ 16) (h : Files n m ops c) (hsingle : call.Single) :
    ∃ c' reply, call.perform c = .ok (c', reply) ∧ Files n m (ops ++ call.regionOps n) c' ∧
      c.MemoryStep call reply c' := by
  have hcount := h.regionCount_le h16
  cases call with
  | issue op spares =>
    obtain ⟨c', hissue, hstep⟩ := issue_registerStep hcount spares
    exact ⟨c', .done, Call.perform_issue hissue, h.step hstep, .kept hstep.memory_eq (by simp)⟩
  | forceControl value =>
    refine ⟨{ c with control := value }, .done, rfl, ?_, .kept rfl (by simp)⟩
    exact idle (.forceControl value) (h.congr rfl rfl rfl rfl) rfl
  | registers =>
    obtain ⟨d, hd⟩ := Bench.exists_selectedRegion hcount
    exact h.look rfl (by simp) rfl (by rw [Call.command, Bench.step, hd]; rfl)
  | region i =>
    obtain ⟨d, hd⟩ := Bench.exists_claimedRegion hcount i
    exact h.look rfl (by simp) rfl (by rw [Call.command, Bench.step, hd]; rfl)
  | probe addresses =>
    obtain ⟨views, hviews⟩ := Bench.exists_probes hcount addresses
    exact h.look rfl (by simp) rfl (by rw [Call.command, Bench.step, hviews]; rfl)
  | read a =>
    obtain ⟨result, hread⟩ := exists_readByte hcount a
    cases result with
    | ok v => exact h.look rfl (by simp) rfl (by rw [Call.command, Bench.step, hread]; rfl)
    | error e => exact h.look rfl (by simp) rfl (by rw [Call.command, Bench.step, hread]; rfl)
  | write a v =>
    obtain ⟨c', result, hwrite, hfiles, hmemory, -⟩ := h.writeByte h16 a v
    exact ⟨c', _, Call.perform_write hwrite, hfiles.idle _ rfl, hmemory⟩
  | writeSlice => exact hsingle.elim
  | load => exact hsingle.elim
  | readBack => exact hsingle.elim

/-- Byte after byte. -/
theorem writeSlice (h16 : n.toNat ≤ 16) (data : List UInt8) : ∀ {c : Core} {a : UInt32},
    Files n m ops c → ∃ c' result, c.writeSlice a data = .ok (c', result) ∧ Files n m ops c' ∧
      c.Unfolds c' ∧ c.AltersOnly (Call.targets (.writeSlice a data)) c' := by
  induction data with
  | nil =>
    intro c a h
    exact ⟨c, .ok (), rfl, h, .refl c, .of_memory_eq _ rfl⟩
  | cons v rest ih =>
    intro c a h
    obtain ⟨c₁, first, hwrite, hfiles, hmemory, hrights⟩ := h.writeByte h16 a v
    have hcall := Call.perform_write hwrite
    have halters := hmemory.altersOnly
    rw [Call.targets_writeSlice_cons]
    simp only [Core.writeSlice, storeAll, hwrite, bind, Except.bind]
    cases first with
    | error e =>
      exact ⟨c₁, .error e, rfl, hfiles, .cons (.write a v) trivial hcall (.refl c₁),
        halters.append hrights (.of_memory_eq _ rfl)⟩
    | ok =>
      obtain ⟨c', result, hrest, hfiles', hunfolds, halters'⟩ := ih (a := a + 1) hfiles
      exact ⟨c', result, hrest, hfiles', .cons (.write a v) trivial hcall hunfolds,
        halters.append hrights halters'⟩

theorem load (h16 : n.toNat ≤ 16) (h : Files n m ops c) (t : RegionTable) :
    ∃ c' result, c.load t = .ok (c', result) ∧
      Files n m (ops ++ if t.length ≤ n.toNat then t.regionOps n else []) c' ∧ c.Unfolds c' ∧
      c'.memory = c.memory := by
  have hcount := h.regionCount_eq
  by_cases hfit : t.length ≤ n.toNat
  · -- what comes before the regions and after them leaves their registers alone
    have hopen : Files n m ops c.opened := h.congr rfl rfl rfl rfl
    obtain ⟨c₁, hall, hfiles, hmemory⟩ := hopen.issueAll h16 (t.regionOps n)
      fun op hop => (t.onRegions_regionOps n op hop).sparesMemory
    have hrun : c.issueAll (t.loadOps n c.primask) = .ok (c₁.closed 7 c.primask) := by
      have hopened : c.issueAll [.mask, .memoryBarrier, .setControl 0] = .ok c.opened :=
        issueAll_open
      simp only [t.loadOps_eq, issueAll_append, hopened, hall]
      rfl
    refine ⟨_, .ok (), ?_, ?_, unfolds_issueAll _ (sparesMemory_loadOps t c.primask) hrun, hmemory⟩
    · rw [load_of_fits (hcount ▸ hfit), hcount, hrun]
      rfl
    · rw [if_pos hfit]
      exact hfiles.congr rfl rfl rfl rfl
  · obtain ⟨e, hload⟩ := load_refused (c := c) (t := t) (by rw [hcount]; omega)
    refine ⟨c, .error e, hload, ?_, .refl c, rfl⟩
    rwa [if_neg hfit, List.append_nil]

theorem readBack (h16 : n.toNat ≤ 16) (h : Files n m ops c) (count : UInt8) :
    ∃ c' s, Snapshot.ofCore c count = .ok (c', s) ∧
      Files n m (ops ++ selectOps 0 (min count.toNat n.toNat)) c' ∧ c.Unfolds c' ∧
      c'.memory = c.memory := by
  obtain ⟨i, hall, hread⟩ := Snapshot.ofCore_eq_ok (h.regionCount_le h16) count
  have hspares : ∀ op ∈ selectOps 0 (min count.toNat c.regionCount.toNat), op.SparesMemory := by
    intro op hop
    obtain ⟨k, -, rfl⟩ := List.mem_map.mp hop
    trivial
  obtain ⟨c', hall', hfiles, hmemory⟩ := h.issueAll h16 _ hspares
  -- the selections alone lead to the same core
  rw [hall] at hall'
  cases hall'
  refine ⟨_, _, hread, ?_, unfolds_issueAll _ hspares hall, hmemory⟩
  rwa [h.regionCount_eq] at hfiles ⊢

theorem perform (h16 : n.toNat ≤ 16) (h : Files n m ops c) (call : Call) :
    ∃ c' reply, call.perform c = .ok (c', reply) ∧ Files n m (ops ++ call.regionOps n) c' ∧
      c.Unfolds c' ∧ c.AltersOnly call.targets c' ∧
      (call.Single → c.MemoryStep call reply c') := by
  by_cases hsingle : call.Single
  · obtain ⟨c', reply, hcall, hfiles, hmemory⟩ := h.perform_single h16 hsingle
    exact ⟨c', reply, hcall, hfiles, .cons call hsingle hcall (.refl c'), hmemory.altersOnly,
      fun _ => hmemory⟩
  · cases call with
    | writeSlice a data =>
      obtain ⟨c', result, hwrite, hfiles, hunfolds, halters⟩ := h.writeSlice h16 data (a := a)
      exact ⟨c', _, Call.perform_writeSlice hwrite, hfiles.idle _ rfl, hunfolds, halters, False.elim⟩
    | load t =>
      obtain ⟨c', result, hload, hfiles, hunfolds, hmemory⟩ := h.load h16 t
      exact ⟨c', _, Call.perform_load hload, hfiles, hunfolds, .of_memory_eq _ hmemory, False.elim⟩
    | readBack count =>
      obtain ⟨c', s, hread, hfiles, hunfolds, hmemory⟩ := h.readBack h16 count
      exact ⟨c', _, Call.perform_readBack hread, hfiles, hunfolds, .of_memory_eq _ hmemory,
        False.elim⟩
    | _ => exact absurd trivial hsingle

theorem runAll (h16 : n.toNat ≤ 16) (calls : List Call) : ∀ {c : Core} {ops : List BusOp},
    Files n m ops c → ∃ c' replies, runAll Call.perform c calls = .ok (c', replies) ∧
      Files n m (ops ++ calls.flatMap (Call.regionOps n)) c' := by
  induction calls with
  | nil =>
    intro c ops h
    exact ⟨c, [], rfl, by rwa [List.flatMap_nil, List.append_nil]⟩
  | cons call rest ih =>
    intro c ops h
    obtain ⟨c₁, reply, hcall, hfiles, -⟩ := h.perform h16 call
    obtain ⟨c', replies, hrest, hfiles'⟩ := ih hfiles
    refine ⟨c', reply :: replies, runAll_cons hcall hrest, ?_⟩
    rwa [List.append_assoc] at hfiles'

theorem claimedRegion_eq (h16 : n.toNat ≤ 16) (h : Files n m ops c) {i : UInt8} (hi : i < n) :
    c.claimedRegion i = .ok (some ⟨BaseWord.ofAddress (lastWritten base? i.toNat ops),
      lastWritten attributes? i.toNat ops⟩) := by
  have hlt := UInt8.lt_iff_toNat_lt.mp hi
  have hi16 := Nat.lt_of_lt_of_le hlt h16
  rw [claimedRegion, if_pos (h.regionCount_eq.symm ▸ hi), region, dif_pos hi16, h.region_eq _ hi16,
    if_pos hlt]
  rfl

theorem base_mod (h : Files n m ops c) {i : Nat} (hi : i < 16) :
    c.regions[i].base.toNat % 32 = 0 := by
  rw [h.region_eq i hi]
  split
  · rw [BaseWord.toNat_ofAddress]
    exact Nat.mul_mod_left _ _
  · rfl

end Files

/-- **The registers after any run of calls.** From reset, on a unit with no more regions than
register pairs, each run comes to an end, and so does whatever call comes next. The registers of a
region hold what was last written to them while it was selected, also where a load or a read-back
had moved the selector. With a region selected that the unit does not have, no operation changes a
register. A byte of memory changes only by a write to it that succeeds, for which privileged code
had the right. A load, a read-back and all else that is not a write keep the whole memory; a write of
several bytes changes it at its own addresses alone. These calls unfold to single ones, so all this
holds within them, too. -/
theorem runAll_registers (n : UInt8) (h16 : n.toNat ≤ 16) (m : Nat) (calls : List Call) :
    ∃ c replies, runAll Call.perform (reset n m) calls = .ok (c, replies) ∧
      c.selected = selectedAfter 0 (calls.flatMap (Call.regionOps n)) ∧
      (∀ i : UInt8, i < n → c.claimedRegion i = .ok (some
        ⟨BaseWord.ofAddress (lastWritten base? i.toNat (calls.flatMap (Call.regionOps n))),
          lastWritten attributes? i.toNat (calls.flatMap (Call.regionOps n))⟩)) ∧
      (∀ i (h : i < 16), c.regions[i].base.toNat % 32 = 0) ∧
      c.memory.size = m ∧
      (∀ op spares, n ≤ c.selected → ∃ c',
        Call.perform c (.issue op spares) = .ok (c', .done) ∧ c'.regions = c.regions) ∧
      (∀ call : Call, ∃ c' reply, call.perform c = .ok (c', reply) ∧ c.Unfolds c' ∧
        (call.targets = [] → c'.memory = c.memory) ∧
        (∀ x, c'.memory[x]? ≠ c.memory[x]? → ∃ a ∈ call.targets, a.toNat = x ∧ c.Writable a) ∧
        (call.Single → ∀ x, c'.memory[x]? ≠ c.memory[x]? →
          ∃ a v, call = .write a v ∧ reply = .done ∧ a.toNat = x)) ∧
      (∀ a v c', Call.perform c (.write a v) = .ok (c', .done) →
        a.toNat < m ∧ c.Writable a ∧ c'.memory = c.memory.setIfInBounds a.toNat v) := by
  obtain ⟨c, replies, hrun, hfiles⟩ := (Files.reset n m).runAll h16 calls
  rw [List.nil_append] at hfiles
  refine ⟨c, replies, hrun, hfiles.selected_eq, fun i hi => hfiles.claimedRegion_eq h16 hi,
    fun i h => hfiles.base_mod h, hfiles.size_eq, fun op spares hsel => ?_, fun call => ?_,
    fun a v c' hcall => ?_⟩
  · obtain ⟨c', hissue, hstep⟩ := issue_registerStep (hfiles.regionCount_le h16) spares
    rw [← hfiles.regionCount_eq] at hsel
    exact ⟨c', Call.perform_issue hissue, hstep.regions_eq hsel⟩
  · obtain ⟨c', reply, hcall, -, hunfolds, halters, hmemory⟩ := hfiles.perform h16 call
    refine ⟨c', reply, hcall, hunfolds, fun hnone => ?_, halters,
      fun hsingle _ hx => (hmemory hsingle).exists_write hx⟩
    rw [hnone] at halters
    exact halters.memory_eq
  · obtain ⟨c₁, reply, hcall', -, hmemory⟩ :=
      hfiles.perform_single h16 (show (Call.write a v).Single from trivial)
    rw [hcall] at hcall'
    cases hcall'
    rw [← hfiles.size_eq]
    exact hmemory.granted

/-- Region 6 does not exist, the load leaves the last region selected, and the read-back another. -/
def wanderingRun (t : RegionTable) : List Call :=
  [.issue (.selectRegion 6) trivial, .issue (.setAttributes 0x3F) trivial,
    .issue (.selectRegion 2) trivial, .issue (.setBase 0x1234567F) trivial, .load t,
    .issue (.setBase 0x5F) trivial, .readBack 2, .issue (.setAttributes 0x05000001) trivial]

theorem runAll_registers_wandering :
    ∃ t, RegionTable.unprotected 0x24000 .reference = .ok t ∧
      ∃ c replies, runAll Call.perform (reset 4 64) (wanderingRun t) = .ok (c, replies) ∧
        c.selected = 1 ∧ c.claimedRegion 2 = .ok (some ⟨0x12345660, 0⟩) ∧
        c.claimedRegion 3 = .ok (some ⟨0x40, 0⟩) ∧
        (c.claimedRegion 1).map (·.map (·.attributes)) = .ok (some 0x05000001) := by
  have htable : RegionTable.unprotected 0x24000 .reference = .ok _ := rfl
  obtain ⟨c, replies, hrun, hselected, hregion, -⟩ :=
    runAll_registers 4 (by decide) 64 (wanderingRun _)
  refine ⟨_, htable, c, replies, hrun, hselected, ?_, ?_, ?_⟩
  · rw [hregion 2 (by decide)]
    rfl
  · rw [hregion 3 (by decide)]
    rfl
  · rw [hregion 1 (by decide)]
    rfl

end Core
end CodeGuard
