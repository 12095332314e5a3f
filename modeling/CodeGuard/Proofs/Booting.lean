import CodeGuard.Proofs.Loading
import CodeGuard.Protection

/-!
# CodeGuard.Proofs.Booting

How a boot ends.

* `Draft.Plans`: what the table of a draft was made from, the layout that was found or nothing.
* `Protection.Boots`: the outcomes of a boot. Without a table, or without room for it, the core is
  left alone; else the table is loaded. `Protection.exists_boots`: there is no other outcome.
-/

namespace CodeGuard

namespace Draft

/-- The table that a configuration alone decides on, and whether it covers the image. -/
inductive Plans (config : Config) : RegionTable → Bool → Prop where
  | protecting {sizes : SizeTable} {l : Layout} {t : RegionTable} :
      config.validate = .ok () →
      SizeTable.reference.resubdivide config.subdivisions.toNat = .ok sizes →
      Layout.cover config.codeSize.toNat config.maxCodeSlots.toNat sizes = .ok l →
      RegionTable.build l config.codeSize config = .ok t → Plans config t true
  | degraded {sizes : SizeTable} {s : Shortfall} {t : RegionTable} :
      config.validate = .ok () →
      SizeTable.reference.resubdivide config.subdivisions.toNat = .ok sizes →
      Layout.cover config.codeSize.toNat config.maxCodeSlots.toNat sizes = .error s →
      RegionTable.unprotected config.codeSize config = .ok t → Plans config t false

variable {config : Config} {t : RegionTable}

theorem ofLayout_plans {sizes : SizeTable} (hvalid : config.validate = .ok ())
    (hsizes : SizeTable.reference.resubdivide config.subdivisions.toNat = .ok sizes)
    (h : (ofLayout config sizes).table = .ok t) :
    Plans config t (ofLayout config sizes).covers := by
  unfold ofLayout at h ⊢
  split at h
  · rename_i l hcover
    split at h
    · cases h
    · exact .protecting hvalid hsizes hcover h
  · rename_i s hcover
    exact .degraded hvalid hsizes hcover h

theorem ofConfig_plans (h : (ofConfig config).table = .ok t) :
    Plans config t (ofConfig config).covers := by
  unfold ofConfig at h ⊢
  split at h
  · cases h
  · rename_i hvalid
    split at h
    · cases h
    · rename_i sizes hsizes
      exact ofLayout_plans hvalid hsizes h

/-- An image that cannot be cut into regions is left unprotected. -/
theorem ofConfig_of_shortfall {sizes : SizeTable} {s : Shortfall} (hvalid : config.validate = .ok ())
    (hsizes : SizeTable.reference.resubdivide config.subdivisions.toNat = .ok sizes)
    (hcover : Layout.cover config.codeSize.toNat config.maxCodeSlots.toNat sizes = .error s) :
    ofConfig config = ⟨RegionTable.unprotected config.codeSize config, false, [.shortfall s]⟩ := by
  simp only [ofConfig, hvalid, hsizes, ofLayout, hcover]

theorem Plans.accepted {covers : Bool} (h : Plans config t covers) : t.Accepted := by
  cases h with
  | protecting _ _ hcover hbuild => exact .build hcover hbuild
  | degraded _ _ _ hbuild => exact .unprotected hbuild

end Draft

/-! ## Outcomes -/

namespace Protection

inductive Boots (config : Config) (c : Core) : Core → Protection → Prop where
  | noTable {e : Error} :
      (Draft.ofConfig config).table = .error e →
      Boots config c c ⟨none, config.codeSize, false⟩
  | refused {t : RegionTable} {covers : Bool} :
      Draft.Plans config t covers → c.regionCount.toNat < t.length →
      Boots config c c ⟨some t, config.codeSize, false⟩
  | loaded {t : RegionTable} {covers : Bool} {c' : Core} :
      Draft.Plans config t covers → c.Loaded t c' →
      Boots config c c' ⟨some t, config.codeSize, covers⟩

variable {config : Config} {c : Core}

/-- A table that the unit has room for is loaded. -/
theorem boot_of_fits {t : RegionTable} (htable : (Draft.ofConfig config).table = .ok t)
    (hfit : t.length ≤ c.regionCount.toNat) (h16 : c.regionCount.toNat ≤ 16) :
    ∃ c', c.load t = .ok (c', .ok ()) ∧ c.Loaded t c' ∧ boot config c =
      .ok (c', ⟨some t, config.codeSize, (Draft.ofConfig config).covers⟩,
        .platform :: ((Draft.ofConfig config).notes ++
          if (Draft.ofConfig config).covers then [.protecting t] else [])) := by
  have hwf := (Draft.ofConfig_plans htable).accepted.wellFormed
  obtain ⟨c', hload, hloaded⟩ := Core.load_eq_ok hwf hfit h16
  refine ⟨c', hload, hloaded, ?_⟩
  simp only [boot, htable, hload]
  cases (Draft.ofConfig config).covers <;> simp

theorem exists_boot_loaded {t : RegionTable} (htable : (Draft.ofConfig config).table = .ok t)
    (hfit : t.length ≤ c.regionCount.toNat) (h16 : c.regionCount.toNat ≤ 16) :
    ∃ c' notes, boot config c =
      .ok (c', ⟨some t, config.codeSize, (Draft.ofConfig config).covers⟩, notes) ∧
        c.Loaded t c' := by
  obtain ⟨c', -, hloaded, hboot⟩ := boot_of_fits htable hfit h16
  exact ⟨c', _, hboot, hloaded⟩

/-- A table that the unit has no room for is refused. -/
theorem boot_of_not_fits {t : RegionTable} (htable : (Draft.ofConfig config).table = .ok t)
    (hroom : c.regionCount.toNat < t.length) :
    ∃ e, c.load t = .ok (c, .error e) ∧ boot config c =
      .ok (c, ⟨some t, config.codeSize, false⟩,
        .platform :: ((Draft.ofConfig config).notes ++ [.loadFailed e])) := by
  obtain ⟨e, hload⟩ := Core.load_refused hroom
  exact ⟨e, hload, by simp only [boot, htable, hload, List.cons_append]⟩

theorem boot_of_error {e : Error} (htable : (Draft.ofConfig config).table = .error e) :
    boot config c = .ok (c, ⟨none, config.codeSize, false⟩,
      .platform :: ((Draft.ofConfig config).notes ++ [.noTable e])) := by
  simp only [boot, htable, List.cons_append]

theorem exists_boots (config : Config) (h16 : c.regionCount.toNat ≤ 16) :
    ∃ c' p notes, boot config c = .ok (c', p, notes) ∧ Boots config c c' p := by
  cases htable : (Draft.ofConfig config).table with
  | error e => exact ⟨_, _, _, boot_of_error htable, .noTable htable⟩
  | ok t =>
    have hplans := Draft.ofConfig_plans htable
    by_cases hfit : t.length ≤ c.regionCount.toNat
    · obtain ⟨c', notes, hboot, hloaded⟩ := exists_boot_loaded htable hfit h16
      exact ⟨c', _, notes, hboot, .loaded hplans hloaded⟩
    · obtain ⟨e, -, hboot⟩ := boot_of_not_fits htable (Nat.not_le.mp hfit)
      exact ⟨c, _, _, hboot, .refused hplans (Nat.not_le.mp hfit)⟩

/-- Taking the notes into a log has no part in the outcome. -/
theorem establish_eq_ok {c' : Core} {p : Protection} {notes : List Note}
    (h : boot config c = .ok (c', p, notes)) (log : Log) :
    establish config c log = .ok (c', p, notes.foldl logNote log) := by
  simp only [establish, h]

theorem establish_boots (config : Config) (log : Log) (h16 : c.regionCount.toNat ≤ 16) :
    ∃ c' p log', establish config c log = .ok (c', p, log') ∧ Boots config c c' p := by
  obtain ⟨c', p, notes, hboot, hboots⟩ := exists_boots config h16
  exact ⟨c', p, _, establish_eq_ok hboot log, hboots⟩

/-- Only a table that covers the image, and that the unit took, makes a protection active. -/
theorem Boots.of_active {c' : Core} {p : Protection} (h : Boots config c c' p)
    (hactive : p.active = true) :
    ∃ sizes l t, p = ⟨some t, config.codeSize, true⟩ ∧
      Layout.cover config.codeSize.toNat config.maxCodeSlots.toNat sizes = .ok l ∧
      RegionTable.build l config.codeSize config = .ok t ∧ c.Loaded t c' := by
  cases h with
  | noTable => cases hactive
  | refused => cases hactive
  | loaded hplans hloaded =>
    cases hplans with
    | protecting _ _ hcover hbuild => exact ⟨_, _, _, rfl, hcover, hbuild, hloaded⟩
    | degraded => cases hactive

/-- An unprotected table comes from an image that could not be cut. -/
theorem Boots.of_unprotected {c' : Core} {p : Protection} {t : RegionTable}
    (h : Boots config c c' p) (htable : p.table = some t) (hopen : t.isUnprotected = true)
    (hfit : t.length ≤ c.regionCount.toNat) :
    p = ⟨some t, config.codeSize, false⟩ ∧
      RegionTable.unprotected config.codeSize config = .ok t ∧ c.Loaded t c' := by
  cases h with
  | noTable => cases htable
  | refused _ hroom =>
    cases htable
    omega
  | loaded hplans hloaded =>
    cases htable
    cases hplans with
    | protecting _ _ hcover hbuild =>
      have hclosed := (RegionTable.assembles_of_build hcover hbuild).background.executable
      rw [RegionTable.isUnprotected, hclosed] at hopen
      cases hopen
    | degraded _ _ _ hbuild => exact ⟨rfl, hbuild, hloaded⟩

end Protection
end CodeGuard
