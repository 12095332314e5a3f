import CodeGuard.Proofs.Exposure
import CodeGuard.Proofs.Patching

/-!
# CodeGuard.Proofs.Agreement

An image takes the same writes whether it is protected or was left open.

* `Core.OnlyStored`: stores, and nothing else, lead from one core to the other.
* `Writer.Twins`: a writer that unlocks the unit and one that does not, on cores with the same
  memory. `Writer.Twins.serve`: one request to both, and they are twins again.
* `Protection.establish_agree`: every run of requests after two such boots.
-/

namespace CodeGuard

namespace Core

/-- Stores, and nothing else, lead from the one core to the other. -/
structure OnlyStored (c : Core) (ops : List BusOp) (c' : Core) : Prop where
  stores : ∀ op ∈ ops, ∃ a v, op = .store a v
  trace_eq : c'.trace = c.trace ++ ops.toArray
  regionCount_eq : c'.regionCount = c.regionCount
  control_eq : c'.control = c.control
  selected_eq : c'.selected = c.selected
  regions_eq : c'.regions = c.regions
  primask_eq : c'.primask = c.primask
  faults_eq : c'.faults = c.faults

variable {c c₁ c' : Core} {ops ops' : List BusOp}

theorem mem_storeOps {op : BusOp} (data : List UInt8) : ∀ {a : UInt32},
    op ∈ storeOps a data → ∃ x v, op = .store x v := by
  induction data with
  | nil =>
    intro a h
    cases h
  | cons v rest ih =>
    intro a h
    rcases List.mem_cons.mp h with rfl | h
    · exact ⟨a, v, rfl⟩
    · exact ih h

namespace OnlyStored

theorem refl (c : Core) : c.OnlyStored [] c where
  stores := by
    intro op h
    cases h
  trace_eq := by simp
  regionCount_eq := rfl
  control_eq := rfl
  selected_eq := rfl
  regions_eq := rfl
  primask_eq := rfl
  faults_eq := rfl

theorem stored (c : Core) (a : UInt32) (data : List UInt8) :
    c.OnlyStored (storeOps a (c.landing a data)) (c.stored a data) where
  stores := fun _ => mem_storeOps _
  trace_eq := rfl
  regionCount_eq := rfl
  control_eq := rfl
  selected_eq := rfl
  regions_eq := rfl
  primask_eq := rfl
  faults_eq := rfl

theorem trans (h : c.OnlyStored ops c₁) (h' : c₁.OnlyStored ops' c') :
    c.OnlyStored (ops ++ ops') c' where
  stores := by
    intro op hop
    rcases List.mem_append.mp hop with hop | hop
    · exact h.stores op hop
    · exact h'.stores op hop
  trace_eq := by simp [h'.trace_eq, h.trace_eq]
  regionCount_eq := h'.regionCount_eq.trans h.regionCount_eq
  control_eq := h'.control_eq.trans h.control_eq
  selected_eq := h'.selected_eq.trans h.selected_eq
  regions_eq := h'.regions_eq.trans h.regions_eq
  primask_eq := h'.primask_eq.trans h.primask_eq
  faults_eq := h'.faults_eq.trans h.faults_eq

theorem writable (h : c.OnlyStored ops c') {a : UInt32} (ha : c.Writable a) : c'.Writable a :=
  ha.congr h.regionCount_eq h.control_eq h.regions_eq

end OnlyStored

/-- Privileged code may store in an image that was left open. -/
theorem Exposes.writable {config : Config} {t : RegionTable} (h : c.Exposes config t) {a : UInt32}
    (ha : a < config.codeSize) : c.Writable a :=
  ⟨.all, (h.image ha).2, rfl⟩

end Core

/-! ## Requests -/

structure Request where
  address : UInt32
  payload : Payload

namespace Writer

/-- The answer to a request, and what is in memory after it. -/
def serve (w : Writer) (c : Core) (r : Request) :
    Except Overrun (Core × (Except WriteError Unit × Array UInt8)) :=
  (w.write c r.address r.payload.toList).map fun (c', result) => (c', result, c'.memory)

/-- Both cores have the same memory. The first is locked and its writer unlocks it, the second is
open for the whole image. -/
structure Twins (w₁ w₂ : Writer) (c₁ c₂ : Core) : Prop where
  limit_eq : w₂.limit = w₁.limit
  active : w₁.active = true
  inactive : w₂.active = false
  enabled : c₁.enabled = true
  writable : ∀ a, a < w₂.limit → c₂.Writable a
  memory_eq : c₂.memory = c₁.memory

namespace Twins

open Image CodeGuard.Core

variable {w₁ w₂ : Writer} {c₁ c₂ : Core}

/-- **One request to both.** Each does what the request does to a plain array. -/
theorem serve (h : Twins w₁ w₂ c₁ c₂) (r : Request) :
    ∃ c₁' c₂' reply ops, w₁.serve c₁ r = .ok (c₁', reply) ∧ w₂.serve c₂ r = .ok (c₂', reply) ∧
      Twins w₁ w₂ c₁' c₂' ∧ c₂.OnlyStored ops c₂' := by
  rw [Writer.serve, Writer.serve, write_of_active h.active h.enabled,
    write_of_inactive h.inactive h.writable, h.limit_eq, h.memory_eq]
  by_cases htakes : Takes w₁.limit r.address r.payload.toList
  · have hstored := OnlyStored.stored c₂ r.address r.payload.toList
    have hmem : (c₂.stored r.address r.payload.toList).memory =
        (c₁.patched r.address r.payload.toList).memory := by
      rw [stored, h.memory_eq, patched]
    rw [if_pos htakes, if_pos htakes]
    -- the replies differ only in whose memory they show
    refine ⟨_, _, _, _, rfl, by rw [← hmem]; rfl, ?_, hstored⟩
    exact { h with
      enabled := h.enabled
      writable := fun a ha => hstored.writable (h.writable a ha)
      memory_eq := hmem }
  · rw [if_neg htakes, if_neg htakes]
    exact ⟨c₁, c₂, _, [], rfl, by rw [← h.memory_eq]; rfl, h, .refl c₂⟩

theorem runAll (rs : List Request) : ∀ {c₁ c₂ : Core}, Twins w₁ w₂ c₁ c₂ →
    ∃ c₁' c₂' replies ops, Core.runAll w₁.serve c₁ rs = .ok (c₁', replies) ∧
      Core.runAll w₂.serve c₂ rs = .ok (c₂', replies) ∧
      Twins w₁ w₂ c₁' c₂' ∧ c₂.OnlyStored ops c₂' := by
  induction rs with
  | nil =>
    intro c₁ c₂ h
    exact ⟨c₁, c₂, [], [], rfl, rfl, h, .refl c₂⟩
  | cons r rest ih =>
    intro c₁ c₂ h
    obtain ⟨_, _, reply, ops, hserve₁, hserve₂, hnext, hstored⟩ := h.serve r
    obtain ⟨c₁', c₂', replies, ops', hrest₁, hrest₂, hend, hstored'⟩ := ih hnext
    exact ⟨c₁', c₂', reply :: replies, ops ++ ops', runAll_cons hserve₁ hrest₁,
      runAll_cons hserve₂ hrest₂, hend, hstored.trans hstored'⟩

end Twins

end Writer

namespace Protection

/-- Of two boots for images of one size, one that protects its image and one that leaves it open
make twins. -/
theorem Boots.twins {config₁ config₂ : Config} (hsize : config₁.codeSize = config₂.codeSize)
    {c₁ c₂ c₁' c₂' : Core} (hmem : c₁.memory = c₂.memory) {p₁ p₂ : Protection} {t : RegionTable}
    (h₁ : Boots config₁ c₁ c₁' p₁) (hactive : p₁.active = true) (h₂ : Boots config₂ c₂ c₂' p₂)
    (htable : p₂.table = some t) (hopen : t.isUnprotected = true)
    (hfit : t.length ≤ c₂.regionCount.toNat) : Writer.Twins p₁.writer p₂.writer c₁' c₂' := by
  obtain ⟨t₁, rfl, hloaded₁, -⟩ := h₁.confines hactive
  obtain ⟨rfl, hbuild, hloaded₂⟩ := h₂.of_unprotected htable hopen hfit
  have hexposes := hloaded₂.exposes (RegionTable.assembles_of_unprotected hbuild)
  exact ⟨hsize.symm, rfl, rfl, hloaded₁.enabled, fun a ha => hexposes.writable ha,
    hloaded₂.memory_eq.trans (hmem.symm.trans hloaded₁.memory_eq.symm)⟩

/-- **Callers cannot tell a degraded boot by their writes.** Two cores with the same memory are
booted for images of one size. If the first boot ends active and the second has loaded a table that
leaves its image open, then every run of requests has the same answers on both, and the same
memory after each. On the second core the run stores and does nothing else. -/
theorem establish_agree (config₁ config₂ : Config) (c₁ c₂ : Core) (log₁ log₂ : Log)
    (hsize : config₁.codeSize = config₂.codeSize) (h₁ : c₁.regionCount.toNat ≤ 16)
    (h₂ : c₂.regionCount.toNat ≤ 16) (hmem : c₁.memory = c₂.memory) :
    ∃ c₁' p₁ log₁' c₂' p₂ log₂', establish config₁ c₁ log₁ = .ok (c₁', p₁, log₁') ∧
      establish config₂ c₂ log₂ = .ok (c₂', p₂, log₂') ∧
      (p₁.active = true → ∀ t, p₂.table = some t → t.isUnprotected = true →
        t.length ≤ c₂.regionCount.toNat → c₁'.memory = c₂'.memory ∧
        ∀ rs : List Request, ∃ c₁'' c₂'' replies ops,
          Core.runAll p₁.writer.serve c₁' rs = .ok (c₁'', replies) ∧
          Core.runAll p₂.writer.serve c₂' rs = .ok (c₂'', replies) ∧
          c₁''.memory = c₂''.memory ∧ c₂'.OnlyStored ops c₂'') := by
  obtain ⟨c₁', p₁, log₁', hrun₁, hboots₁⟩ := establish_boots config₁ log₁ h₁
  obtain ⟨c₂', p₂, log₂', hrun₂, hboots₂⟩ := establish_boots config₂ log₂ h₂
  refine ⟨c₁', p₁, log₁', c₂', p₂, log₂', hrun₁, hrun₂, fun hactive t htable hopen hfit => ?_⟩
  have htwins := hboots₁.twins hsize hmem hactive hboots₂ htable hopen hfit
  refine ⟨htwins.memory_eq.symm, fun rs => ?_⟩
  obtain ⟨c₁'', c₂'', replies, ops, hall₁, hall₂, hend, hstored⟩ := htwins.runAll rs
  exact ⟨c₁'', c₂'', replies, ops, hall₁, hall₂, hend.memory_eq.symm, hstored⟩

/-- The reference image, and the same image with a single code slot, which is not enough. The
requests end at the last byte of memory, past it, and past the image. -/
theorem establish_agree_reference :
    ∃ c₁ p₁ log₁ c₂ p₂ log₂, establish .reference (Core.reset 8 64) {} = .ok (c₁, p₁, log₁) ∧
      establish { Config.reference with maxCodeSlots := 1 }
        { Core.reset 4 64 with regions := .replicate 16 ⟨0, 0x3F⟩ } {} = .ok (c₂, p₂, log₂) ∧
      p₁.active = true ∧ p₂.active = false ∧ ∃ c₁' c₂' replies ops,
        Core.runAll p₁.writer.serve c₁ [⟨60, .word 0x44332211⟩, ⟨62, .word 0x88776655⟩,
          ⟨0x24000, .byte 0⟩] = .ok (c₁', replies) ∧
        Core.runAll p₂.writer.serve c₂ [⟨60, .word 0x44332211⟩, ⟨62, .word 0x88776655⟩,
          ⟨0x24000, .byte 0⟩] = .ok (c₂', replies) ∧
        c₁'.memory = c₂'.memory ∧ c₂.OnlyStored ops c₂' := by
  obtain ⟨c₁, ⟨table₁, size₁, active₁⟩, log₁, c₂, ⟨table₂, size₂, active₂⟩, log₂, hrun₁, hrun₂,
    hagree⟩ := establish_agree .reference { Config.reference with maxCodeSlots := 1 }
      (Core.reset 8 64) { Core.reset 4 64 with regions := .replicate 16 ⟨0, 0x3F⟩ } {} {} rfl
      (by decide) (by decide) rfl
  have hok₁ : (establish .reference (Core.reset 8 64) {}).map (fun r => r.2.1.active) =
      .ok true := by rfl
  have hok₂ : (establish { Config.reference with maxCodeSlots := 1 }
      { Core.reset 4 64 with regions := .replicate 16 ⟨0, 0x3F⟩ } {}).map (fun r =>
        (r.2.1.active, r.2.1.table.map fun t => (t.isUnprotected, t.length))) =
      .ok (false, some (true, 2)) := by rfl
  rw [hrun₁] at hok₁
  rw [hrun₂] at hok₂
  cases hok₁
  cases table₂ with
  | none => cases hok₂
  | some t =>
    obtain ⟨hinactive, hopen, hlength⟩ :
        active₂ = false ∧ t.isUnprotected = true ∧ t.length = 2 := by
      simpa [Except.map] using hok₂
    obtain ⟨-, hruns⟩ := hagree rfl t rfl hopen (by rw [hlength]; decide)
    obtain ⟨c₁', c₂', replies, ops, hall⟩ := hruns
      [⟨60, .word 0x44332211⟩, ⟨62, .word 0x88776655⟩, ⟨0x24000, .byte 0⟩]
    exact ⟨c₁, _, log₁, c₂, _, log₂, hrun₁, hrun₂, rfl, hinactive, c₁', c₂', replies, ops, hall⟩

end Protection
end CodeGuard
