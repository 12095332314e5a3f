import CodeGuard.Bench
import CodeGuard.Proofs.Masking

/-!
# CodeGuard.Proofs.Nesting

Guards that keep interrupts out, one within the other.

* `Nested`: the words that the open guards will restore, down to the one from before the first.
* `Bench.step_keepsMask`: any command but those on guards leaves guards and mask as they are.
* `Bench.Nests.step`: any command leaves the guards nested, and only the two on guards change them.
* `Bench.drive_nests`: a run of commands, at any point of it.
-/

namespace CodeGuard

/-- While guards are open the mask is 1. Each of them has the word that it found, so the first one
has `initial`. -/
inductive Nested (initial : UInt32) : (guards : List UInt32) → (primask : UInt32) → Prop where
  | closed : Nested initial [] initial
  | opened {guards : List UInt32} {saved : UInt32} :
      Nested initial guards saved → Nested initial (saved :: guards) 1

theorem Nested.primask_eq {initial primask : UInt32} {guards : List UInt32}
    (h : Nested initial guards primask) : primask = if guards = [] then initial else 1 := by
  cases h with
  | closed => rfl
  | opened => rfl

/-- The command has no access to the interrupt mask other than through guards. -/
def Command.Scoped : Command → Prop
  | .issue op => op.SparesMask
  | .mask => False
  | _ => True

/-- The guards that are open after a command, the newest first. -/
def Command.guardsAfter (primask : UInt32) (guards : List UInt32) : Command → List UInt32
  | .pushGuard => primask :: guards
  | .popGuard => guards.tail
  | _ => guards

theorem Command.guardsAfter_of_ne {command : Command} (hpush : command ≠ .pushGuard)
    (hpop : command ≠ .popGuard) (primask : UInt32) (guards : List UInt32) :
    command.guardsAfter primask guards = guards := by
  cases command with
  | pushGuard => exact absurd rfl hpush
  | popGuard => exact absurd rfl hpop
  | _ => rfl

namespace Bench

/-! ## Looking at the core -/

theorem exists_selectedRegion {c : Core} (h16 : c.regionCount.toNat ≤ 16) :
    ∃ d, c.selectedRegion = .ok d := by
  rw [Core.selectedRegion]
  split
  · rename_i hlt
    exact Core.exists_region (Nat.lt_of_lt_of_le (UInt8.lt_iff_toNat_lt.mp hlt) h16)
  · exact ⟨_, rfl⟩

theorem exists_claimedRegion {c : Core} (h16 : c.regionCount.toNat ≤ 16) (i : UInt8) :
    ∃ d, c.claimedRegion i = .ok d := by
  rw [Core.claimedRegion]
  split
  · rename_i hlt
    obtain ⟨d, hd⟩ := Core.exists_region (c := c)
      (Nat.lt_of_lt_of_le (UInt8.lt_iff_toNat_lt.mp hlt) h16)
    rw [hd]
    exact ⟨some d, rfl⟩
  · exact ⟨_, rfl⟩

theorem exists_probes {c : Core} (h16 : c.regionCount.toNat ≤ 16) (addresses : List UInt32) :
    ∃ views, addresses.mapM (probeAt c) = .ok views := by
  induction addresses with
  | nil => exact ⟨[], rfl⟩
  | cons a rest ih =>
    obtain ⟨views, hrest⟩ := ih
    obtain ⟨region, hregion, -⟩ := Core.exists_matchingRegion h16 a
    obtain ⟨privileged, hprivileged⟩ := Core.exists_access h16 a true
    obtain ⟨unprivileged, hunprivileged⟩ := Core.exists_access h16 a false
    have hprobe : probeAt c a = .ok ⟨a, region, privileged, unprivileged⟩ := by
      simp only [probeAt, hregion, hprivileged, hunprivileged, bind, Except.bind, pure, Except.pure]
    exact ⟨_, by rw [List.mapM_cons, hprobe, hrest]; rfl⟩

/-! ## One command -/

/-- The command comes to a result that leaves guards and mask as they are. -/
def Settles (b : Bench) (result : Except Overrun (Bench × Reply)) : Prop :=
  ∃ b' reply, result = .ok (b', reply) ∧ b'.guards = b.guards ∧ b.core.KeepsMask b'.core

variable {b : Bench}

theorem settles_of_core_eq {b' : Bench} (hguards : b'.guards = b.guards) (hcore : b'.core = b.core)
    (reply : Reply) : b.Settles (.ok (b', reply)) :=
  ⟨b', reply, rfl, hguards, hcore ▸ .refl b.core⟩

theorem settles_withProtection {f : Protection → Except Overrun (Bench × Reply)}
    (h : ∀ p, b.Settles (f p)) : b.Settles (b.withProtection f) := by
  rw [withProtection]
  split
  · exact settles_of_core_eq rfl rfl _
  · exact h _

theorem settles_withWriter {f : Writer → Except Overrun (Bench × Reply)}
    (h : ∀ w, b.Settles (f w)) : b.Settles (b.withWriter f) := by
  rw [withWriter]
  split
  · exact settles_of_core_eq rfl rfl _
  · exact h _

theorem settles_writeThrough (h16 : b.core.regionCount.toNat ≤ 16) (w : Writer) (a : UInt32)
    (payload : Payload) : b.Settles (b.writeThrough w a payload) := by
  obtain ⟨c', result, hwrite, hkeep⟩ := w.write_keepsMask h16 a payload.toList
  exact ⟨b.withCore c', _, by rw [writeThrough, hwrite]; rfl, rfl, hkeep⟩

theorem step_keepsMask (h16 : b.core.regionCount.toNat ≤ 16) {command : Command}
    (hscoped : command.Scoped) (hpush : command ≠ .pushGuard) (hpop : command ≠ .popGuard) :
    b.Settles (b.step command) := by
  cases command with
  | issue op =>
    obtain ⟨c', hissue, hkeep⟩ := Core.issue_spares h16 hscoped
    exact ⟨b.withCore c', _, by rw [step, hissue]; rfl, rfl, hkeep⟩
  | forceControl value => exact ⟨_, _, rfl, rfl, rfl, rfl, fun _ => rfl⟩
  | clearTrace => exact ⟨_, _, rfl, rfl, rfl, rfl, fun _ => rfl⟩
  | registers =>
    obtain ⟨d, hd⟩ := exists_selectedRegion h16
    rw [step, hd]
    exact settles_of_core_eq rfl rfl _
  | region i =>
    obtain ⟨d, hd⟩ := exists_claimedRegion h16 i
    rw [step, hd]
    exact settles_of_core_eq rfl rfl _
  | probe addresses =>
    obtain ⟨views, hviews⟩ := exists_probes h16 addresses
    rw [step, hviews]
    exact settles_of_core_eq rfl rfl _
  | memory a count => exact settles_of_core_eq rfl rfl _
  | read a =>
    obtain ⟨result, hread⟩ := Core.exists_readByte h16 a
    rw [step, hread]
    cases result with
    | ok v => exact settles_of_core_eq rfl rfl _
    | error e => exact settles_of_core_eq rfl rfl _
  | write a v =>
    obtain ⟨c', result, hwrite, hkeep⟩ := Core.writeByte_keepsMask h16 a v
    exact ⟨b.withCore c', _, by rw [step, hwrite]; rfl, rfl, hkeep⟩
  | writeSlice a data =>
    obtain ⟨c', result, hwrite, hkeep⟩ := Core.writeSlice_keepsMask data (a := a) h16
    exact ⟨b.withCore c', _, by rw [step, hwrite]; rfl, rfl, hkeep⟩
  | mask => exact hscoped.elim
  | pushGuard => exact absurd rfl hpush
  | popGuard => exact absurd rfl hpop
  | chooseTable choice =>
    rw [step]
    split
    · exact settles_of_core_eq rfl rfl _
    · exact settles_of_core_eq rfl rfl _
  | load =>
    rw [step]
    split
    · exact settles_of_core_eq rfl rfl _
    · rename_i t _
      obtain ⟨c', result, hload, hkeep⟩ := Core.load_keepsMask h16 t
      exact ⟨b.withCore c', _, by rw [hload]; rfl, rfl, hkeep⟩
  | readBack count =>
    obtain ⟨c', s, hread, hkeep⟩ := Snapshot.ofCore_keepsMask h16 count
    exact ⟨b.withCore c', _, by rw [step, hread]; rfl, rfl, hkeep⟩
  | setThreshold level => exact settles_of_core_eq rfl rfl _
  | boot config =>
    obtain ⟨c', p, log', hboot, hkeep⟩ := Protection.establish_keepsMask h16 config b.log
    exact ⟨{ b with core := c', protection := some p, log := log' }, _,
      by rw [step, hboot]; rfl, rfl, hkeep⟩
  | log => exact settles_of_core_eq rfl rfl _
  | listing => exact settles_withProtection fun p => settles_of_core_eq rfl rfl _
  | dump =>
    refine settles_withProtection fun p => ?_
    obtain ⟨c', s, hdump, hkeep⟩ := Snapshot.ofCore_keepsMask h16 b.core.regionCount
    exact ⟨b.withCore c', _, by rw [Protection.dump, hdump]; rfl, rfl, hkeep⟩
  | inspect => exact settles_withProtection fun p => settles_of_core_eq rfl rfl _
  | protectedWrite a payload =>
    exact settles_withProtection fun p => settles_writeThrough h16 p.writer a payload
  | newWriter limit active => exact settles_of_core_eq rfl rfl _
  | takeWriter => exact settles_withProtection fun p => settles_of_core_eq rfl rfl _
  | writerWrite a payload =>
    exact settles_withWriter fun w => settles_writeThrough h16 w a payload

/-! ## Nesting -/

/-- The guards of the bench are nested, and its core has no more regions than register pairs. -/
structure Nests (initial : UInt32) (b : Bench) : Prop where
  regionCount_le : b.core.regionCount.toNat ≤ 16
  nested : Nested initial b.guards b.core.primask

variable {initial : UInt32}

namespace Nests

theorem interruptsMasked (h : b.Nests initial) (hopen : b.guards ≠ []) :
    b.core.interruptsMasked = true := by
  have hone : b.core.primask = 1 := by rw [h.nested.primask_eq, if_neg hopen]
  rw [Core.interruptsMasked, hone]
  decide

theorem pushGuard (h : b.Nests initial) :
    ∃ b' reply, b.step .pushGuard = .ok (b', reply) ∧ b'.Nests initial ∧
      b'.guards = b.core.primask :: b.guards ∧ b'.core.unmaskedStores = b.core.unmaskedStores :=
  ⟨_, _, rfl, ⟨h.regionCount_le, .opened h.nested⟩, rfl, rfl⟩

/-- The newest guard sets back the word that the guards below it are nested for. -/
theorem popGuard (h : b.Nests initial) :
    ∃ b' reply, b.step .popGuard = .ok (b', reply) ∧ b'.Nests initial ∧
      b'.guards = b.guards.tail ∧ b'.core.unmaskedStores = b.core.unmaskedStores := by
  obtain ⟨h16, hnested⟩ := h
  rw [step]
  split
  · rename_i hguards
    exact ⟨b, _, rfl, ⟨h16, hnested⟩, by rw [hguards, List.tail_nil], rfl⟩
  · rename_i saved rest hguards
    rw [hguards] at hnested
    generalize b.core.primask = primask at hnested
    cases hnested with
    | opened hrest => exact ⟨_, _, rfl, ⟨h16, hrest⟩, by rw [hguards, List.tail_cons], rfl⟩

theorem step (h : b.Nests initial) {command : Command} (hscoped : command.Scoped) :
    ∃ b' reply, b.step command = .ok (b', reply) ∧ b'.Nests initial ∧
      b'.guards = command.guardsAfter b.core.primask b.guards ∧
      (command ≠ .pushGuard → command ≠ .popGuard → b'.core.primask = b.core.primask) ∧
      (b.guards ≠ [] → b'.core.unmaskedStores = b.core.unmaskedStores) := by
  by_cases hpush : command = .pushGuard
  · subst hpush
    obtain ⟨b', reply, hstep, hnests, hguards, hstores⟩ := h.pushGuard
    exact ⟨b', reply, hstep, hnests, hguards, fun hne => absurd rfl hne, fun _ => hstores⟩
  by_cases hpop : command = .popGuard
  · subst hpop
    obtain ⟨b', reply, hstep, hnests, hguards, hstores⟩ := h.popGuard
    exact ⟨b', reply, hstep, hnests, hguards, fun _ hne => absurd rfl hne, fun _ => hstores⟩
  obtain ⟨b', reply, hstep, hguards, hkeep⟩ := step_keepsMask h.regionCount_le hscoped hpush hpop
  have hnests : b'.Nests initial := by
    refine ⟨hkeep.regionCount_le h.regionCount_le, ?_⟩
    rw [hguards, hkeep.primask_eq]
    exact h.nested
  rw [← Command.guardsAfter_of_ne hpush hpop b.core.primask b.guards] at hguards
  exact ⟨b', reply, hstep, hnests, hguards, fun _ _ => hkeep.primask_eq,
    fun hopen => hkeep.unmaskedStores_eq (h.interruptsMasked hopen)⟩

end Nests

/-! ## Runs -/

/-- The bench after some commands. -/
def drive (b : Bench) : List Command → Except Overrun Bench
  | [] => .ok b
  | command :: rest =>
    match b.step command with
    | .error o => .error o
    | .ok (b', _) => b'.drive rest

theorem Nests.drive {commands : List Command} : ∀ {b : Bench}, b.Nests initial →
    (∀ command ∈ commands, command.Scoped) → ∃ b', b.drive commands = .ok b' ∧ b'.Nests initial := by
  induction commands with
  | nil =>
    intro b h _
    exact ⟨b, rfl, h⟩
  | cons command rest ih =>
    intro b h hscoped
    obtain ⟨hcommand, hrest⟩ := List.forall_mem_cons.mp hscoped
    obtain ⟨b₁, reply, hstep, hnests, -⟩ := h.step hcommand
    obtain ⟨b', hdrive, hnests'⟩ := ih hnests hrest
    exact ⟨b', by rw [Bench.drive, hstep]; exact hdrive, hnests'⟩

/-- **Guards nest.** From any mask word, after any commands that have no access to the mask other
than through guards: with no guard open the mask is the word from the start, with a guard open it is
1. Whatever comes next comes to an end, opens and drops no other guards than it should, leaves the
mask as it is unless it is about a guard, and has no store counted while a guard is open. -/
theorem drive_nests {b : Bench} (h16 : b.core.regionCount.toNat ≤ 16) (hguards : b.guards = [])
    (commands : List Command) (hscoped : ∀ command ∈ commands, command.Scoped) :
    ∃ b', b.drive commands = .ok b' ∧
      (b'.guards = [] → b'.core.primask = b.core.primask) ∧
      (b'.guards ≠ [] → b'.core.primask = 1) ∧
      ∀ command, command.Scoped → ∃ b'' reply, b'.step command = .ok (b'', reply) ∧
        b''.guards = command.guardsAfter b'.core.primask b'.guards ∧
        (command ≠ .pushGuard → command ≠ .popGuard → b''.core.primask = b'.core.primask) ∧
        (b'.guards ≠ [] → b''.core.unmaskedStores = b'.core.unmaskedStores) := by
  have hstart : b.Nests b.core.primask := ⟨h16, hguards ▸ .closed⟩
  obtain ⟨b', hdrive, hnests⟩ := hstart.drive hscoped
  refine ⟨b', hdrive, fun hnone => ?_, fun hopen => ?_, fun command hcommand => ?_⟩
  · rw [hnests.nested.primask_eq, if_pos hnone]
  · rw [hnests.nested.primask_eq, if_neg hopen]
  · obtain ⟨b'', reply, hstep, -, hafter⟩ := hnests.step hcommand
    exact ⟨b'', reply, hstep, hafter⟩

/-- Two guards, and under them a load, a write with the unit off and a plain store. -/
def guardedRun : List Command :=
  [.pushGuard, .chooseTable (.unprotected 0x24000 .reference), .load, .pushGuard,
    .newWriter 32 true, .writerWrite 0 (.byte 7), .popGuard, .write 4 1, .popGuard]

/-- The word 2 keeps no interrupt out, and is not the word that a guard sets. -/
theorem drive_nests_guardedRun :
    ∃ b', ({ core := { Core.reset 8 64 with primask := 2 } } : Bench).drive guardedRun = .ok b' ∧
      b'.core.primask = 2 := by
  obtain ⟨b', hdrive, hnone, -⟩ :=
    drive_nests (b := { core := { Core.reset 8 64 with primask := 2 } }) (by decide) rfl guardedRun
      (by simp [guardedRun, Command.Scoped])
  have hguards : (({ core := { Core.reset 8 64 with primask := 2 } } : Bench).drive guardedRun).map
      (·.guards) = .ok [] := rfl
  rw [hdrive] at hguards
  exact ⟨b', hdrive, hnone (Except.ok.inj hguards)⟩

end Bench
end CodeGuard
