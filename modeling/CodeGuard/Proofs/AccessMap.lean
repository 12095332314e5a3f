import CodeGuard.Proofs.Booting
import CodeGuard.Proofs.Matching

/-!
# CodeGuard.Proofs.AccessMap

The rights at every address after a boot.

* `Core.Loaded.access_code` and its neighbours: a loaded table grants what the role of the deciding
  slot says.
* `Core.Confines`: the image can be read and executed, the guard is closed, the background can be
  read and written, and the rest is left to privileged code.
* `Protection.establish_confines`: every boot that ends active leaves the core so.
-/

namespace CodeGuard

namespace Window

def Holds (w : Window) (x : Nat) : Prop :=
  w.base.toNat ≤ x ∧ x < w.base.toNat + w.size.toNat

end Window

namespace Access

/-- Rights in code that is protected. -/
def code : Access := ⟨true, false, true⟩

/-- Rights in the background of protected code. -/
def data : Access := ⟨true, true, false⟩

/-- Rights where no region decides: the default map, for privileged code only. -/
def unclaimed (privileged : Bool) : Access :=
  if privileged then all else none

end Access

/-! ## Rights of a slot -/

namespace Slot

variable {s : Slot} {privileged : Bool}

theorem granted_attributesWord (s : Slot) (privileged : Bool) :
    Access.granted s.attributesWord privileged =
      ⟨(Access.ofPermission s.permission.code privileged).1,
        (Access.ofPermission s.permission.code privileged).2,
        (Access.ofPermission s.permission.code privileged).1 && s.executable⟩ := by
  simp [Access.granted]

theorem Protects.granted {b : Block} (h : s.Protects b) :
    Access.granted s.attributesWord privileged = .code := by
  rw [granted_attributesWord, h.permission, h.executable]
  cases privileged <;> rfl

theorem Spans.granted {w : Window} {x : Bool} (h : s.Spans w x) :
    Access.granted s.attributesWord privileged = ⟨true, true, x⟩ := by
  rw [granted_attributesWord, h.permission, h.executable]
  cases privileged <;> rfl

theorem Guards.granted {codeEnd guardSize : UInt32} (h : s.Guards codeEnd guardSize) :
    Access.granted s.attributesWord privileged = .none := by
  rw [granted_attributesWord, h.permission, h.executable]
  cases privileged <;> rfl

theorem Spans.frames_iff {w : Window} {x : Bool} (h : s.Spans w x) (a : Nat) :
    s.Frames a ↔ w.Holds a := by
  rw [Frames, Window.Holds, h.base, h.bytes]

theorem Guards.frames_iff {codeEnd guardSize : UInt32} (h : s.Guards codeEnd guardSize) (a : Nat) :
    s.Frames a ↔ Window.Holds ⟨s.base, guardSize⟩ a := by
  rw [Frames, Window.Holds, h.bytes]

theorem Guards.not_frames_of_lt {codeEnd guardSize : UInt32} (h : s.Guards codeEnd guardSize)
    {a : Nat} (ha : a < codeEnd.toNat) : ¬ s.Frames a := by
  intro hg
  have hafter := h.bounds.2.1
  exact absurd hg.1 (by omega)

end Slot

/-! ## Rights of a core -/

namespace Core

variable {c c' : Core} {t : RegionTable} {a : UInt32} {privileged : Bool}

theorem Loaded.enabled (h : c.Loaded t c') : c'.enabled = true := by
  rw [Core.enabled, h.control_eq]
  rfl

theorem Loaded.privilegedDefault (h : c.Loaded t c') :
    ControlWord.privilegedDefault.isSet c'.control = true := by
  rw [h.control_eq]
  rfl

theorem Loaded.access_of_none (h : c.Loaded t c') (ha : c'.matchingRegion a = .ok none) :
    c'.access a privileged = .ok (.unclaimed privileged) := by
  simp only [access, h.enabled, ha, h.privilegedDefault, if_true, Bool.and_true, Access.unclaimed]

theorem Loaded.access_of_some {k : Nat} {s : Slot} (h : c.Loaded t c') (hk : t.slots[k]? = some s)
    (ha : c'.matchingRegion a = .ok (some k)) :
    c'.access a privileged = .ok (.granted s.attributesWord privileged) := by
  obtain ⟨hlt, rfl⟩ := List.getElem?_eq_some_iff.mp hk
  have h16 : k < 16 := by
    have := t.length_slots
    have := h.wellFormed.length_le
    omega
  simp only [access, h.enabled, ha, if_true, region, dif_pos h16, h.slot k hlt h16,
    Slot.descriptor]

/-! One lemma for each role of the deciding slot. -/

theorem Loaded.access_guard {codeEnd guardSize : UInt32} (h : c.Loaded t c')
    (hguards : t.guard.Guards codeEnd guardSize) (hg : t.guard.Frames a.toNat) :
    c'.access a privileged = .ok .none := by
  have hmatch := h.matchingRegion_of_decides (.guard hg)
  rw [h.wellFormed.guard_id] at hmatch
  rw [h.access_of_some t.getElem?_slots_guard hmatch, hguards.granted]

theorem Loaded.access_code {k : Nat} {b : Block} (h : c.Loaded t c') (hk : k < t.code.length)
    (hprot : t.code[k].Protects b) (hg : ¬ t.guard.Frames a.toNat) (hc : t.code[k].Holds a.toNat) :
    c'.access a privileged = .ok .code := by
  have hmatch := h.matchingRegion_of_decides (.code hk hg hc)
  rw [h.access_of_some (t.getElem?_slots_code hk) hmatch, hprot.granted]

theorem Loaded.access_background {w : Window} {x : Bool} (h : c.Loaded t c')
    (hspans : t.background.Spans w x) (hg : ¬ t.guard.Frames a.toNat)
    (hc : ∀ s ∈ t.code, ¬ s.Holds a.toNat) (hb : t.background.Frames a.toNat) :
    c'.access a privileged = .ok ⟨true, true, x⟩ := by
  have hmatch := h.matchingRegion_of_decides (.background hg hc hb)
  rw [h.access_of_some rfl hmatch, hspans.granted]

theorem Loaded.access_elsewhere (h : c.Loaded t c') (hg : ¬ t.guard.Frames a.toNat)
    (hc : ∀ s ∈ t.code, ¬ s.Holds a.toNat) (hb : ¬ t.background.Frames a.toNat) :
    c'.access a privileged = .ok (.unclaimed privileged) :=
  h.access_of_none (h.matchingRegion_of_decides (.none hg hc hb))

/-! ## Protected images -/

/-- The code slots decide on the image and on nothing else. It can be read and executed, nothing
can be done in the guard behind it, and the rest of the background can be read and written. -/
structure Confines (c : Core) (config : Config) (t : RegionTable) : Prop where
  code_below_guard : config.codeSize ≤ t.guard.base
  decided : ∀ a, (∃ k, k < t.code.length ∧ c.matchingRegion a = .ok (some (k + 1))) ↔
    a < config.codeSize
  code : ∀ a privileged, a < config.codeSize → c.access a privileged = .ok .code
  guard : ∀ a privileged, Window.Holds ⟨t.guard.base, config.guardSize⟩ a.toNat →
    c.access a privileged = .ok .none
  background : ∀ a privileged, config.codeSize ≤ a →
    ¬ Window.Holds ⟨t.guard.base, config.guardSize⟩ a.toNat → config.background.Holds a.toNat →
    c.access a privileged = .ok .data
  elsewhere : ∀ a privileged, config.codeSize ≤ a →
    ¬ Window.Holds ⟨t.guard.base, config.guardSize⟩ a.toNat → ¬ config.background.Holds a.toNat →
    c.access a privileged = .ok (.unclaimed privileged)

theorem Loaded.confines {config : Config} {sizes : SizeTable} {l : Layout} (h : c.Loaded t c')
    (hasm : t.Assembles l config.codeSize config false)
    (htiles : Tiles sizes 0 config.codeSize.toNat l.blocks) : c'.Confines config t := by
  have hholds := hasm.exists_holds_iff htiles
  have hopen : ∀ {a : UInt32}, a < config.codeSize → ¬ t.guard.Frames a.toNat := by
    intro a ha
    exact hasm.guard.not_frames_of_lt (UInt32.lt_iff_toNat_lt.mp ha)
  have hfree : ∀ {a : UInt32}, config.codeSize ≤ a → ∀ s ∈ t.code, ¬ s.Holds a.toNat := by
    intro a ha s hs hx
    have := (hholds a.toNat).mp ⟨s, hs, hx⟩
    exact absurd (UInt32.le_iff_toNat_le.mp ha) (by omega)
  have hslot : ∀ {a : UInt32}, a < config.codeSize →
      ∃ k, ∃ hk : k < t.code.length, t.code[k].Holds a.toNat := by
    intro a ha
    obtain ⟨s, hs, hx⟩ := (hholds a.toNat).mpr (UInt32.lt_iff_toNat_lt.mp ha)
    obtain ⟨k, hk, rfl⟩ := List.mem_iff_getElem.mp hs
    exact ⟨k, hk, hx⟩
  refine ⟨UInt32.le_iff_toNat_le.mpr hasm.guard.bounds.2.1, ?_, ?_, ?_, ?_, ?_⟩
  · intro a
    constructor
    · rintro ⟨k, hk, hmatch⟩
      have hx := (h.matchingRegion_eq_ok_iff.mp hmatch).holds_code h.wellFormed hk
      exact UInt32.lt_iff_toNat_lt.mpr ((hholds a.toNat).mp ⟨_, List.getElem_mem hk, hx⟩)
    · intro ha
      obtain ⟨k, hk, hx⟩ := hslot ha
      exact ⟨k, hk, h.matchingRegion_of_decides (.code hk (hopen ha) hx)⟩
  · intro a privileged ha
    obtain ⟨k, hk, hx⟩ := hslot ha
    obtain ⟨b, _, hprot⟩ := RegionTable.exists_of_forall₂ hasm.code _ (List.getElem_mem hk)
    exact h.access_code hk hprot (hopen ha) hx
  · intro a privileged hg
    exact h.access_guard hasm.guard ((hasm.guard.frames_iff _).mpr hg)
  · intro a privileged ha hg hb
    exact h.access_background hasm.background (mt (hasm.guard.frames_iff _).mp hg) (hfree ha)
      ((hasm.background.frames_iff _).mpr hb)
  · intro a privileged ha hg hb
    exact h.access_elsewhere (mt (hasm.guard.frames_iff _).mp hg) (hfree ha)
      (mt (hasm.background.frames_iff _).mp hb)

end Core

namespace Protection

theorem Boots.confines {config : Config} {c c' : Core} {p : Protection}
    (h : Boots config c c' p) (hactive : p.active = true) :
    ∃ t, p = ⟨some t, config.codeSize, true⟩ ∧ c.Loaded t c' ∧ c'.Confines config t := by
  obtain ⟨sizes, l, t, hp, hcover, hbuild, hloaded⟩ := h.of_active hactive
  have hasm := RegionTable.assembles_of_build hcover hbuild
  exact ⟨t, hp, hloaded, hloaded.confines hasm (Layout.tiles_of_cover hcover).1⟩

/-- **An active protection confines the program.** Whatever the core was left with before, every
boot comes to an end; if it ends active, each address has the rights of its place in the memory
map, and the code slots decide on exactly the bytes that the writer may patch. -/
theorem establish_confines (config : Config) {c : Core} (log : Log)
    (h16 : c.regionCount.toNat ≤ 16) :
    ∃ c' p log', establish config c log = .ok (c', p, log') ∧
      (p.active = true →
        p.protectedSize = config.codeSize ∧ ∃ t, p.table = some t ∧ c'.Confines config t) := by
  obtain ⟨c', p, log', hrun, hboots⟩ := establish_boots config log h16
  refine ⟨c', p, log', hrun, fun hactive => ?_⟩
  cases hboots with
  | noTable => cases hactive
  | refused => cases hactive
  | @loaded t covers _ hplans hloaded =>
    cases hplans with
    | degraded => cases hactive
    | protecting _ _ hcover hbuild =>
      have hasm := RegionTable.assembles_of_build hcover hbuild
      have htiles := (Layout.tiles_of_cover hcover).1
      exact ⟨rfl, t, rfl, hloaded.confines hasm htiles⟩

/-- The reference image on eight regions, all of them left on by an earlier program. -/
theorem establish_confines_reference :
    ∃ c' p log',
      establish .reference { Core.reset 8 64 with regions := .replicate 16 ⟨0, 0x3F⟩ } {} =
        .ok (c', p, log') ∧
      p.active = true ∧ p.protectedSize = 0x24000 ∧
      ∃ t, p.table = some t ∧ c'.Confines .reference t := by
  obtain ⟨c', p, log', hrun, hconf⟩ := establish_confines .reference {}
    (c := { Core.reset 8 64 with regions := .replicate 16 ⟨0, 0x3F⟩ }) (by decide)
  have hok : (establish .reference { Core.reset 8 64 with regions := .replicate 16 ⟨0, 0x3F⟩ }
      {}).map (fun r => r.2.1.active) = .ok true := by rfl
  rw [hrun] at hok
  have hactive : p.active = true := Except.ok.inj hok
  exact ⟨c', p, log', hrun, hactive, hconf hactive⟩

end Protection
end CodeGuard
