import CodeGuard.Proofs.AccessMap

/-!
# CodeGuard.Proofs.Exposure

The rights at every address after a boot that could not cut the image into regions.

* `Core.Exposes`: the guard behind the image is closed, the rest of the background is open to all,
  and what is left is open to privileged code.
* `Core.Exposes.image`: privileged code may do anything in the image, wherever the image ends.
* `Protection.establish_exposes`: every such boot leaves the core so.
-/

namespace CodeGuard

namespace RegionTable.Assembles

variable {t : RegionTable} {codeEnd : UInt32} {config : Config} {x : Bool}

theorem code_eq_nil (h : t.Assembles .empty codeEnd config x) : t.code = [] :=
  List.forall₂_nil_right_iff.mp h.code

end RegionTable.Assembles

namespace Core

variable {c c' : Core} {config : Config} {t : RegionTable}

/-- The guard is behind the image and closed. In the background around it anything goes. -/
structure Exposes (c : Core) (config : Config) (t : RegionTable) : Prop where
  code_below_guard : config.codeSize ≤ t.guard.base
  guard : ∀ a privileged, Window.Holds ⟨t.guard.base, config.guardSize⟩ a.toNat →
    c.access a privileged = .ok .none
  background : ∀ a privileged, ¬ Window.Holds ⟨t.guard.base, config.guardSize⟩ a.toNat →
    config.background.Holds a.toNat → c.access a privileged = .ok .all
  elsewhere : ∀ a privileged, ¬ Window.Holds ⟨t.guard.base, config.guardSize⟩ a.toNat →
    ¬ config.background.Holds a.toNat → c.access a privileged = .ok (.unclaimed privileged)

theorem Loaded.exposes (h : c.Loaded t c')
    (hasm : t.Assembles .empty config.codeSize config true) : c'.Exposes config t := by
  have hfree : ∀ {a : Nat}, ∀ s ∈ t.code, ¬ s.Holds a := by
    intro a s hs
    rw [hasm.code_eq_nil] at hs
    cases hs
  refine ⟨UInt32.le_iff_toNat_le.mpr hasm.guard.bounds.2.1, ?_, ?_, ?_⟩
  · intro a privileged hg
    exact h.access_guard hasm.guard ((hasm.guard.frames_iff _).mpr hg)
  · intro a privileged hg hb
    exact h.access_background hasm.background (mt (hasm.guard.frames_iff _).mp hg) hfree
      ((hasm.background.frames_iff _).mpr hb)
  · intro a privileged hg hb
    exact h.access_elsewhere (mt (hasm.guard.frames_iff _).mp hg) hfree
      (mt (hasm.background.frames_iff _).mp hb)

/-- The image is clear of the guard. Inside the background it is open to all, outside it has the
default map, and either is enough for privileged code. -/
theorem Exposes.image (h : c.Exposes config t) {a : UInt32} (ha : a < config.codeSize) :
    ¬ Window.Holds ⟨t.guard.base, config.guardSize⟩ a.toNat ∧ c.access a true = .ok .all := by
  have hclear : ¬ Window.Holds ⟨t.guard.base, config.guardSize⟩ a.toNat := by
    rintro ⟨hbase, -⟩
    have hle := UInt32.le_iff_toNat_le.mp h.code_below_guard
    exact absurd (UInt32.lt_iff_toNat_lt.mp ha) (Nat.not_lt.mpr (hle.trans hbase))
  refine ⟨hclear, ?_⟩
  by_cases hb : config.background.Holds a.toNat
  · exact h.background a true hclear hb
  · exact h.elsewhere a true hclear hb

end Core

namespace Protection

variable {config : Config} {sizes : SizeTable} {s : Shortfall} {t : RegionTable} {c : Core}

/-- **A degraded boot leaves the image usable.** Whatever the core was left with before, if the
image cannot be cut into regions, the two slots of the unprotected table decide on all rights. No
byte of the image is under the guard, and privileged code may do anything with it. -/
theorem establish_exposes (log : Log) (hvalid : config.validate = .ok ())
    (hsizes : SizeTable.reference.resubdivide config.subdivisions.toNat = .ok sizes)
    (hcover : Layout.cover config.codeSize.toNat config.maxCodeSlots.toNat sizes = .error s)
    (htable : RegionTable.unprotected config.codeSize config = .ok t)
    (h2 : 2 ≤ c.regionCount.toNat) (h16 : c.regionCount.toNat ≤ 16) :
    ∃ c' p log', establish config c log = .ok (c', p, log') ∧ p.active = false ∧
      p.table = some t ∧ t.isUnprotected = true ∧ t.length = 2 ∧ c'.Exposes config t ∧
      ∀ a, a < config.codeSize → ¬ Window.Holds ⟨t.guard.base, config.guardSize⟩ a.toNat ∧
        c'.access a true = .ok .all := by
  have hasm := RegionTable.assembles_of_unprotected htable
  have hlength : t.length = 2 := by rw [RegionTable.length, hasm.code_eq_nil, List.length_nil]
  have hdraft := Draft.ofConfig_of_shortfall hvalid hsizes hcover
  obtain ⟨c', notes, hboot, hloaded⟩ := exists_boot_loaded (c := c)
    (show (Draft.ofConfig config).table = .ok t by rw [hdraft, htable]) (hlength ▸ h2) h16
  rw [hdraft] at hboot
  have hexposes := hloaded.exposes hasm
  exact ⟨c', ⟨some t, config.codeSize, false⟩, _, establish_eq_ok hboot log, rfl, rfl,
    hasm.background.executable, hlength, hexposes, fun a ha => hexposes.image ha⟩

/-- An image of 1 MB and 100 bytes, which is no whole number of guards and reaches past the
background, on a unit of which an earlier program left all regions on. -/
theorem establish_exposes_unaligned :
    ∃ t c' p log', establish { Config.reference with codeSize := 0x100064 }
        { Core.reset 4 64 with regions := .replicate 16 ⟨0, 0x3F⟩ } {} = .ok (c', p, log') ∧
      p.active = false ∧ p.table = some t ∧ t.isUnprotected = true ∧ t.guard.base = 0x100080 ∧
      c'.Exposes { Config.reference with codeSize := 0x100064 } t := by
  have hvalid : Config.validate { Config.reference with codeSize := 0x100064 } = .ok () := by decide
  obtain ⟨c', p, log', hrun, hactive, htable, hopen, -, hexposes, -⟩ :=
    establish_exposes {} hvalid rfl rfl rfl
      (c := { Core.reset 4 64 with regions := .replicate 16 ⟨0, 0x3F⟩ }) (by decide) (by decide)
  exact ⟨_, c', p, log', hrun, hactive, htable, hopen, rfl, hexposes⟩

end Protection
end CodeGuard
