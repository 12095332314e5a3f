import CodeGuard.Proofs.AccessMap
import CodeGuard.Proofs.Patching
import CodeGuard.Proofs.ReadBack

/-!
# CodeGuard.Proofs.Shielding

No interrupt handler runs while the unit is off.

* `Core.Shielded`: a stretch of operations, with interrupts masked wherever the unit is off, and no
  store but within the image and with the unit off.
* `Protection.Call.perform_shielded`: one call to a protection, and what it leaves alone.
* `Protection.establish_shielded`: every run of calls after a boot that ends active.
-/

namespace CodeGuard

/-! ## Stretches of operations -/

namespace Core

/-- While the unit is off, interrupts are masked. -/
def Quiet (c : Core) : Prop :=
  c.enabled = false → c.interruptsMasked = true

/-- A store comes with the unit off and interrupts masked, to an address under `limit`. -/
def Allows (c : Core) (limit : UInt32) : BusOp → Prop
  | .store a _ => c.control = ControlWord.disabled ∧ c.interruptsMasked = true ∧ a < limit
  | _ => True

/-- The operations lead from the one core to the other. Each core on the way is quiet and allows the
operation that comes next. -/
inductive Shielded (limit : UInt32) : Core → List BusOp → Core → Prop where
  | nil {c : Core} : c.Quiet → Shielded limit c [] c
  | cons {c c₁ c' : Core} {op : BusOp} {ops : List BusOp} : c.Quiet → c.Allows limit op →
      c.issue op = .ok c₁ → Shielded limit c₁ ops c' → Shielded limit c (op :: ops) c'

variable {limit : UInt32} {c c₁ c' : Core} {op : BusOp} {ops ops' : List BusOp}

theorem quiet_of_enabled (h : c.enabled = true) : c.Quiet :=
  fun hoff => absurd hoff (by simp [h])

theorem quiet_of_masked (h : c.interruptsMasked = true) : c.Quiet :=
  fun _ => h

namespace Shielded

theorem append (h : Shielded limit c ops c₁) (h' : Shielded limit c₁ ops' c') :
    Shielded limit c (ops ++ ops') c' := by
  induction h with
  | nil => exact h'
  | cons hquiet hallows hissue _ ih => exact .cons hquiet hallows hissue (ih h')

theorem issueAll (h : Shielded limit c ops c') : c.issueAll ops = .ok c' := by
  induction h with
  | nil => rfl
  | cons _ _ hissue _ ih => simp only [Core.issueAll, hissue, ih]

end Shielded

/-! Operations are recorded as they are issued. -/

theorem trace_setRegion {i : Nat} {d : Descriptor} (h : c.setRegion i d = .ok c') :
    c'.trace = c.trace := by
  unfold setRegion at h
  split at h
  · cases h
    rfl
  · cases h

theorem trace_updateSelected {f : Descriptor → Descriptor} (h : c.updateSelected f = .ok c') :
    c'.trace = c.trace := by
  unfold updateSelected at h
  split at h
  · split at h
    · cases h
    · exact trace_setRegion h
  · cases h
    rfl

theorem trace_apply (h : c.apply op = .ok c') : c'.trace = c.trace := by
  cases op with
  | setBase => exact trace_updateSelected h
  | setAttributes => exact trace_updateSelected h
  | _ =>
    cases h
    rfl

theorem trace_issue (h : c.issue op = .ok c') : c'.trace = c.trace.push op := by
  cases happly : c.apply op with
  | error o =>
    rw [issue, happly] at h
    cases h
  | ok c₁ =>
    rw [issue, happly] at h
    cases h
    exact congrArg (·.push op) (trace_apply happly)

theorem trace_issueAll (ops : List BusOp) : ∀ {c : Core}, c.issueAll ops = .ok c' →
    c'.trace = c.trace ++ ops.toArray := by
  induction ops with
  | nil =>
    intro c h
    cases h
    simp
  | cons op rest ih =>
    intro c h
    cases hissue : c.issue op with
    | error o =>
      rw [issueAll, hissue] at h
      cases h
    | ok c₁ =>
      rw [issueAll, hissue] at h
      simp [ih h, trace_issue hissue]

/-! ## The window -/

/-- With the unit off and interrupts masked, stores may go anywhere in the image. -/
theorem shielded_stores (data : List UInt8) : ∀ {c : Core} {a : UInt32},
    c.control = ControlWord.disabled → c.interruptsMasked = true →
    a.toNat + data.length ≤ limit.toNat →
    Shielded limit c (storeOps a (c.landing a data)) (c.stored a data) := by
  induction data with
  | nil =>
    intro c a _ hmask _
    rw [stored_nil, landing, List.take_nil, storeOps]
    exact .nil (quiet_of_masked hmask)
  | cons v rest ih =>
    intro c a hoff hmask hfit
    rw [List.length_cons] at hfit
    by_cases hmem : a.toNat < c.memory.size
    · have hlimit := limit.toNat_lt_size
      have hnext := toNat_add_one (show a.toNat + 1 < UInt32.size by omega)
      have hrest := ih (c := (c.store a v).record (.store a v)) (a := a + 1) hoff hmask (by omega)
      rw [stored_cons hmem hnext] at hrest
      rw [landing_cons hmem hnext]
      exact .cons (quiet_of_masked hmask)
        ⟨hoff, hmask, UInt32.lt_iff_toNat_lt.mpr (by omega)⟩ rfl hrest
    · have hle := Nat.not_lt.mp hmem
      rw [landing_of_size_le hle, stored_of_size_le hle]
      exact .nil (quiet_of_masked hmask)

theorem shielded_opened (hon : c.enabled = true) :
    Shielded limit c [.mask, .memoryBarrier, .setControl ControlWord.disabled] c.opened := by
  -- the mask is down before the unit goes off
  refine .cons (quiet_of_enabled hon) trivial rfl ?_
  refine .cons (quiet_of_enabled hon) trivial rfl ?_
  refine .cons (quiet_of_enabled hon) trivial rfl ?_
  exact .nil (c := c.opened) (quiet_of_masked interruptsMasked_opened)

theorem shielded_closed {control : UInt32} (primask : UInt32) (hmask : c.interruptsMasked = true)
    (hon : ControlWord.enable.isSet control = true) :
    Shielded limit c [.setControl control, .syncBarrier, .fetchBarrier, .restore primask]
      (c.closed control primask) := by
  -- the unit is on before the mask goes up
  refine .cons (quiet_of_masked hmask) trivial rfl ?_
  refine .cons (quiet_of_enabled hon) trivial rfl ?_
  refine .cons (quiet_of_enabled hon) trivial rfl ?_
  refine .cons (quiet_of_enabled hon) trivial rfl ?_
  exact .nil (c := c.closed control primask) (quiet_of_enabled hon)

theorem shielded_patched {a : UInt32} {data : List UInt8} (hon : c.enabled = true)
    (hfit : a.toNat + data.length ≤ limit.toNat) :
    Shielded limit c (windowOps c.control c.primask (storeOps a (c.landing a data)))
      (c.patched a data) := by
  have hstores : Shielded limit c.opened (storeOps a (c.landing a data)) (c.opened.stored a data) :=
    shielded_stores data rfl interruptsMasked_opened hfit
  have hclosed : Shielded limit (c.opened.stored a data)
      [.setControl c.control, .syncBarrier, .fetchBarrier, .restore c.primask]
      ((c.opened.stored a data).closed c.control c.primask) :=
    shielded_closed c.primask (interruptsMasked_opened (c := c)) hon
  rw [closed_stored_opened] at hclosed
  exact ((shielded_opened hon).append hstores).append hclosed

theorem shielded_selectOps (n : Nat) : ∀ {c : Core} {id : Nat}, c.enabled = true →
    c.issueAll (selectOps id n) = .ok c' → Shielded limit c (selectOps id n) c' := by
  induction n with
  | zero =>
    intro c id hon hsel
    cases hsel
    exact .nil (quiet_of_enabled hon)
  | succ n ih =>
    intro c id hon hsel
    simp only [selectOps_succ, issueAll, issue_selectRegion] at hsel
    rw [selectOps_succ]
    exact .cons (quiet_of_enabled hon) trivial issue_selectRegion (ih hon hsel)

/-- Memory, selector and trace apart, the core is as it was. -/
structure Kept (c c' : Core) : Prop where
  regionCount_eq : c'.regionCount = c.regionCount
  control_eq : c'.control = c.control
  regions_eq : c'.regions = c.regions
  primask_eq : c'.primask = c.primask
  faults_eq : c'.faults = c.faults
  unmaskedStores_eq : c'.unmaskedStores = c.unmaskedStores

namespace Kept

theorem refl (c : Core) : c.Kept c :=
  ⟨rfl, rfl, rfl, rfl, rfl, rfl⟩

theorem trans (h : c.Kept c₁) (h' : c₁.Kept c') : c.Kept c' where
  regionCount_eq := h'.regionCount_eq.trans h.regionCount_eq
  control_eq := h'.control_eq.trans h.control_eq
  regions_eq := h'.regions_eq.trans h.regions_eq
  primask_eq := h'.primask_eq.trans h.primask_eq
  faults_eq := h'.faults_eq.trans h.faults_eq
  unmaskedStores_eq := h'.unmaskedStores_eq.trans h.unmaskedStores_eq

theorem enabled (h : c.Kept c') (hon : c.enabled = true) : c'.enabled = true := by
  rw [Core.enabled, h.control_eq]
  exact hon

end Kept

end Core

/-! ## Calls -/

namespace Protection

/-- What callers ask of a protection after the boot. -/
inductive Call where
  | patch (address : UInt32) (payload : Payload)
  | dump

inductive Reply where
  | patched (result : Except WriteError Unit)
  | dumped (snapshot : Snapshot)

open Image CodeGuard.Core

variable {w : Writer} {c : Core}

def Call.perform (w : Writer) (c : Core) : Call → Except Overrun (Core × Reply)
  | .patch a payload => (w.write c a payload.toList).map fun (c', r) => (c', .patched r)
  | .dump => (Protection.dump c).map fun (c', s) => (c', .dumped s)

/-- **One call.** It comes to an end, and until then no store and no interrupt slips through. -/
theorem Call.perform_shielded (hactive : w.active = true) (hon : c.enabled = true)
    (h16 : c.regionCount.toNat ≤ 16) (call : Call) :
    ∃ c' reply ops, call.perform w c = .ok (c', reply) ∧ Shielded w.limit c ops c' ∧ c.Kept c' := by
  cases call with
  | patch a payload =>
    rw [perform, Writer.write_of_active hactive hon]
    by_cases h : Takes w.limit a payload.toList
    · rw [if_pos h]
      exact ⟨_, _, _, rfl, shielded_patched hon h.2, ⟨rfl, rfl, rfl, rfl, rfl, rfl⟩⟩
    · rw [if_neg h]
      exact ⟨c, _, [], rfl, .nil (quiet_of_enabled hon), .refl c⟩
  | dump =>
    obtain ⟨i, hsel, hdump⟩ := dump_eq_ok h16
    rw [perform, hdump]
    exact ⟨_, _, _, rfl, shielded_selectOps _ hon hsel, ⟨rfl, rfl, rfl, rfl, rfl, rfl⟩⟩

/-- The unit is on between calls, which is all that the next one needs. -/
theorem runAll_shielded (hactive : w.active = true) (calls : List Call) : ∀ {c : Core},
    c.enabled = true → c.regionCount.toNat ≤ 16 →
    ∃ c' replies ops, runAll (Call.perform w) c calls = .ok (c', replies) ∧
      Shielded w.limit c ops c' ∧ c.Kept c' := by
  induction calls with
  | nil =>
    intro c hon _
    exact ⟨c, [], [], rfl, .nil (quiet_of_enabled hon), .refl c⟩
  | cons call rest ih =>
    intro c hon h16
    obtain ⟨c₁, reply, ops, hcall, hshielded, hkept⟩ := call.perform_shielded hactive hon h16
    obtain ⟨c', replies, ops', hrest, hshielded', hkept'⟩ :=
      ih (hkept.enabled hon) (hkept.regionCount_eq ▸ h16)
    exact ⟨c', reply :: replies, ops ++ ops', runAll_cons hcall hrest,
      hshielded.append hshielded', hkept.trans hkept'⟩

/-- Registers that still stand as they were loaded read back as the table. -/
theorem dump_matchesTable {t : RegionTable} {c₀ c' : Core} (h : c₀.Loaded t c)
    (hkept : c.Kept c') : ∃ c'' s, dump c' = .ok (c'', s) ∧ s.matchesTable t = true := by
  have hcount := hkept.regionCount_eq.trans h.regionCount_eq
  obtain ⟨i, _, hdump⟩ := dump_eq_ok (c := c') (hcount ▸ h.regionCount_le)
  refine ⟨_, _, hdump, (Snapshot.matchesTable_iff (hcount ▸ h.regionCount_le) _).mpr ?_⟩
  intro s hs
  refine ⟨hcount ▸ h.wellFormed.id_lt_iff.mpr h.fits s hs, ?_⟩
  rw [Core.region, hkept.regions_eq]
  exact h.region_eq s hs

/-- **The unit is never off while interrupts are open.** Whatever the core was left with before,
every boot comes to an end; if it ends active, so does every run of calls after it. Replayed one by
one, the operations of the run have interrupts masked wherever the unit is off, and store only then
and only into the image. After the last call the unit is on, the interrupt mask is the one from
before the boot, no counter has moved, and the registers read back as the table. -/
theorem establish_shielded (config : Config) {c : Core} (log : Log)
    (h16 : c.regionCount.toNat ≤ 16) :
    ∃ c' p log', establish config c log = .ok (c', p, log') ∧
      (p.active = true → ∃ t, p.table = some t ∧ ∀ calls : List Call, ∃ c'' replies ops,
        runAll (Call.perform p.writer) c' calls = .ok (c'', replies) ∧
        c''.trace = c'.trace ++ ops.toArray ∧ Shielded p.protectedSize c' ops c'' ∧
        c''.control = 7 ∧ c''.primask = c.primask ∧ c''.regions = c'.regions ∧
        c''.faults = c'.faults ∧ c''.unmaskedStores = c'.unmaskedStores ∧
        ∃ c₃ s, dump c'' = .ok (c₃, s) ∧ s.matchesTable t = true) := by
  obtain ⟨c', p, log', hrun, hboots⟩ := establish_boots config log h16
  refine ⟨c', p, log', hrun, fun hactive => ?_⟩
  obtain ⟨t, rfl, hloaded, -⟩ := hboots.confines hactive
  refine ⟨t, rfl, fun calls => ?_⟩
  obtain ⟨c'', replies, ops, hcalls, hshielded, hkept⟩ :=
    runAll_shielded (w := writer ⟨some t, config.codeSize, true⟩) rfl calls hloaded.enabled
      (hloaded.regionCount_eq ▸ h16)
  exact ⟨c'', replies, ops, hcalls, trace_issueAll ops hshielded.issueAll, hshielded,
    hkept.control_eq.trans hloaded.control_eq, hkept.primask_eq.trans hloaded.primask_eq,
    hkept.regions_eq, hkept.faults_eq, hkept.unmaskedStores_eq, dump_matchesTable hloaded hkept⟩

/-- The reference image in a memory of 64 bytes, booted with the mask at 2: a patch, a dump, a patch
that runs out of memory, one past the image and an empty one. -/
theorem establish_shielded_reference :
    ∃ c' p log', establish .reference { Core.reset 8 64 with primask := 2 } {} =
        .ok (c', p, log') ∧ p.active = true ∧ p.protectedSize = 0x24000 ∧
      ∃ c'' replies ops, runAll (Call.perform p.writer) c'
        [.patch 0x10 (.word 0x44332211), .dump, .patch 62 (.word 0x88776655),
          .patch 0x24000 (.byte 0), .patch 0 (.bytes [])] = .ok (c'', replies) ∧
        Shielded 0x24000 c' ops c'' ∧ c''.control = 7 ∧ c''.primask = 2 := by
  obtain ⟨c', ⟨table, size, active⟩, log', hrun, hshielded⟩ :=
    establish_shielded .reference {} (c := { Core.reset 8 64 with primask := 2 }) (by decide)
  have hok : (establish .reference { Core.reset 8 64 with primask := 2 } {}).map
      (fun r => (r.2.1.active, r.2.1.protectedSize)) = .ok (true, 0x24000) := by rfl
  rw [hrun] at hok
  cases hok
  obtain ⟨t, -, hcalls⟩ := hshielded rfl
  obtain ⟨c'', replies, ops, hall, -, hops, hcontrol, hprimask, -⟩ := hcalls
    [.patch 0x10 (.word 0x44332211), .dump, .patch 62 (.word 0x88776655),
      .patch 0x24000 (.byte 0), .patch 0 (.bytes [])]
  exact ⟨c', _, log', hrun, rfl, rfl, c'', replies, ops, hall, hops, hcontrol, hprimask⟩

end Protection
end CodeGuard
