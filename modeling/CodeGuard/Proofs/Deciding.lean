import CodeGuard.Proofs.Booting
import CodeGuard.Proofs.Building
import CodeGuard.Proofs.Checking

/-!
# CodeGuard.Proofs.Deciding

What a boot decides on, and on what grounds.

* `Config.Drafts`: the drafts there are. A valid configuration has a table unless its image cannot
  be cut and leaves no place for the guard. `Config.ofConfig_drafts`: there is no other draft.
* `Protection.Ends`: the ends of a boot, with what it says. `Protection.exists_ends`: there is no
  other end.
* `Protection.establish_decides`: the outcome, read off the configuration and the number of regions.
-/

namespace CodeGuard

/-! ## Configurations -/

/-- A tiling with few and small regions does not reach far. -/
theorem Tiles.end_le {t : SizeTable} {a e m : Nat} {bs : List Block} (hmax : ∀ s ∈ t.sizes, s ≤ m)
    (h : Tiles t a e bs) : e ≤ a + bs.length * m := by
  induction h with
  | nil => exact Nat.le_add_right _ _
  | whole hs _ _ ih =>
    have hle := hmax _ hs
    rw [List.length_cons, Nat.succ_mul]
    omega
  | lowest hs _ _ hkd =>
    have hle := hmax _ hs
    have hlt := SizeTable.mul_subBlockSize_lt hs hkd
    rw [List.length_singleton, Nat.one_mul]
    omega

/-- The sizes of the reference part can be cut in every way that there is. -/
theorem SizeTable.exists_resubdivide {d : Nat} (hd : d ∈ [1, 2, 4, 8]) :
    ∃ sizes, reference.resubdivide d = .ok sizes ∧ sizes.sizes = Limits.codeRegionSizes := by
  simp only [List.mem_cons, List.not_mem_nil, or_false] at hd
  rcases hd with rfl | rfl | rfl | rfl <;> exact ⟨_, rfl, rfl⟩

namespace Config

/-- What a valid configuration keeps to. -/
structure Valid (config : Config) : Prop where
  hardwareRegions_le : config.hardwareRegions.toNat ≤ 16
  fits : config.maxCodeSlots.toNat + 2 ≤ config.hardwareRegions.toNat
  subdivisions : config.subdivisions.toNat ∈ [1, 2, 4, 8]
  background : config.background.WellFormed
  guard_isPowerOfTwo : config.guardSize.toNat.isPowerOfTwo
  thirtyTwo_le_guard : 32 ≤ config.guardSize.toNat

/-- The image is cut into the blocks of `l`. -/
def Cuts (config : Config) (l : Layout) : Prop :=
  ∃ sizes, SizeTable.reference.resubdivide config.subdivisions.toNat = .ok sizes ∧
    Layout.cover config.codeSize.toNat config.maxCodeSlots.toNat sizes = .ok l

/-- The image cannot be cut; `s` is what is left over. -/
def FallsShort (config : Config) (s : Shortfall) : Prop :=
  ∃ sizes, SizeTable.reference.resubdivide config.subdivisions.toNat = .ok sizes ∧
    Layout.cover config.codeSize.toNat config.maxCodeSlots.toNat sizes = .error s

variable {config : Config} {l l' : Layout} {s : Shortfall} {t : RegionTable}

theorem valid_of_validate (h : config.validate = .ok ()) : config.Valid := by
  simp only [validate] at h
  split at h
  · cases h
  · rename_i hcount
    split at h
    · cases h
    · rename_i hfits
      split at h
      · cases h
      · rename_i hsub
        split at h
        · cases h
        · rename_i hback
          split at h
          · cases h
          · rename_i hguard
            obtain ⟨hpow, hlo⟩ := Decidable.not_not.mp hguard
            exact {
              hardwareRegions_le := Nat.not_lt.mp fun hlt => hcount (.inr hlt)
              fits := Nat.not_lt.mp hfits
              subdivisions := Decidable.not_not.mp hsub
              background := Decidable.not_not.mp hback
              guard_isPowerOfTwo := hpow
              thirtyTwo_le_guard := hlo }

/-- There is one answer to the question whether the image can be cut. -/
theorem cover_unique {r r' : Except Shortfall Layout}
    (h : ∃ sizes, SizeTable.reference.resubdivide config.subdivisions.toNat = .ok sizes ∧
      Layout.cover config.codeSize.toNat config.maxCodeSlots.toNat sizes = r)
    (h' : ∃ sizes, SizeTable.reference.resubdivide config.subdivisions.toNat = .ok sizes ∧
      Layout.cover config.codeSize.toNat config.maxCodeSlots.toNat sizes = r') : r = r' := by
  obtain ⟨sizes, hsizes, rfl⟩ := h
  obtain ⟨sizes', hsizes', rfl⟩ := h'
  rw [hsizes] at hsizes'
  cases hsizes'
  rfl

theorem Cuts.unique (h : config.Cuts l) (h' : config.Cuts l') : l = l' :=
  Except.ok.inj (cover_unique h h')

theorem Cuts.not_fallsShort (h : config.Cuts l) : ¬ config.FallsShort s := by
  intro h'
  cases cover_unique h h'

theorem Cuts.length_le (h : config.Cuts l) : l.length ≤ config.maxCodeSlots.toNat := by
  obtain ⟨sizes, -, hcover⟩ := h
  have hlen := (Layout.tiles_of_cover hcover).2
  omega

theorem Cuts.assembles (h : config.Cuts l) (ht : RegionTable.build l config.codeSize config = .ok t) :
    t.Assembles l config.codeSize config false := by
  obtain ⟨sizes, -, hcover⟩ := h
  exact RegionTable.assembles_of_build hcover ht

namespace Valid

theorem guardFits (h : config.Valid) : config.GuardFits :=
  ⟨h.guard_isPowerOfTwo, h.thirtyTwo_le_guard⟩

/-- An image that can be cut is so small that there is always a place for the guard behind it. -/
theorem exists_build (h : config.Valid) {sizes : SizeTable}
    (hsizes : SizeTable.reference.resubdivide config.subdivisions.toNat = .ok sizes)
    (hcover : Layout.cover config.codeSize.toNat config.maxCodeSlots.toNat sizes = .ok l) :
    ∃ t, RegionTable.build l config.codeSize config = .ok t := by
  obtain ⟨sizes', hsizes', hlist⟩ := SizeTable.exists_resubdivide h.subdivisions
  rw [hsizes] at hsizes'
  cases hsizes'
  obtain ⟨htiles, hlen⟩ := Layout.tiles_of_cover hcover
  have hfits := h.fits
  have hcount := h.hardwareRegions_le
  obtain ⟨size, hsize⟩ := h.guardFits.exists_ofBytes?
  have hguard : config.guardSize.toNat ≤ 0x80000000 :=
    RegionSize.ofBytes?_eq_some_iff.mp hsize ▸ size.bytes_le
  have hmax : ∀ s ∈ sizes.sizes, s ≤ 0x40000 := by
    rw [hlist]
    decide
  have hcode := htiles.end_le hmax
  have hblocks : l.blocks.length ≤ 14 := by
    rw [Layout.length] at hlen
    omega
  have hreach : config.codeSize.toNat + (config.guardSize.toNat - 1) < UInt32.size := by
    show _ < 0x100000000
    omega
  exact RegionTable.Fits.exists_assemble
    ⟨hblocks, backgroundFits_iff.mpr h.background, h.guardFits, h.guardFits.reaches_iff.mpr hreach⟩
    htiles false

theorem exists_unprotected_iff (h : config.Valid) :
    (∃ t, RegionTable.unprotected config.codeSize config = .ok t) ↔
      config.codeSize.toNat + (config.guardSize.toNat - 1) < UInt32.size := by
  constructor
  · rintro ⟨t, ht⟩
    exact (RegionTable.assembles_of_unprotected ht).reach_lt
  · intro hreach
    exact RegionTable.Fits.exists_assemble
      ⟨Nat.zero_le _, backgroundFits_iff.mpr h.background, h.guardFits,
        h.guardFits.reaches_iff.mpr hreach⟩
      (Tiles.nil (t := .reference)) true

end Valid

/-! ## Drafts -/

/-- The drafts there are, with the grounds for each. -/
inductive Drafts (config : Config) : Draft → Prop where
  | rejected {e : Error} : config.validate = .error e → Drafts config ⟨.error e, false, []⟩
  | protecting {l : Layout} {t : RegionTable} :
      config.validate = .ok () → config.Cuts l →
      RegionTable.build l config.codeSize config = .ok t →
      Drafts config ⟨.ok t, true, l.blocks.map Note.block⟩
  | degraded {s : Shortfall} {t : RegionTable} :
      config.validate = .ok () → config.FallsShort s →
      RegionTable.unprotected config.codeSize config = .ok t →
      Drafts config ⟨.ok t, false, [.shortfall s]⟩
  | cornered {s : Shortfall} {e : Error} :
      config.validate = .ok () → config.FallsShort s →
      RegionTable.unprotected config.codeSize config = .error e →
      0xFFFFFFFF < config.codeSize.toNat + config.guardSize.toNat - 1 →
      Drafts config ⟨.error e, false, [.shortfall s]⟩

theorem ofConfig_drafts (config : Config) : config.Drafts (Draft.ofConfig config) := by
  cases hvalid : config.validate with
  | error e =>
    rw [Draft.ofConfig, hvalid]
    exact .rejected hvalid
  | ok _ =>
    have hv := valid_of_validate hvalid
    obtain ⟨sizes, hsizes, -⟩ := SizeTable.exists_resubdivide hv.subdivisions
    cases hcover : Layout.cover config.codeSize.toNat config.maxCodeSlots.toNat sizes with
    | ok l =>
      obtain ⟨t, ht⟩ := hv.exists_build hsizes hcover
      simp only [Draft.ofConfig, hvalid, hsizes, Draft.ofLayout, hcover,
        Layout.check_of_cover hcover, ht]
      exact .protecting hvalid ⟨sizes, hsizes, hcover⟩ ht
    | error s =>
      rw [Draft.ofConfig_of_shortfall hvalid hsizes hcover]
      cases ht : RegionTable.unprotected config.codeSize config with
      | ok t => exact .degraded hvalid ⟨sizes, hsizes, hcover⟩ ht
      | error e =>
        have hreach : ¬ config.codeSize.toNat + (config.guardSize.toNat - 1) < UInt32.size := by
          rw [← hv.exists_unprotected_iff, ht]
          simp
        have hguard := hv.thirtyTwo_le_guard
        refine .cornered hvalid ⟨sizes, hsizes, hcover⟩ ht ?_
        simp only [UInt32.size] at hreach
        omega

variable {covers : Bool} {notes : List Note}

/-- The configured number of regions is enough for the table. -/
theorem Drafts.length_le (h : config.Drafts ⟨.ok t, covers, notes⟩) :
    t.length ≤ config.hardwareRegions.toNat := by
  cases h with
  | protecting hvalid hcuts ht =>
    have hfits := (valid_of_validate hvalid).fits
    have hlen := hcuts.length_le
    rw [(hcuts.assembles ht).length_eq]
    omega
  | degraded hvalid _ ht =>
    have hfits := (valid_of_validate hvalid).fits
    rw [(RegionTable.assembles_of_unprotected ht).length_eq]
    exact Nat.le_trans (Nat.le_add_left 2 _) hfits

end Config

/-! ## Ends of a boot -/

namespace Protection

/-- The ends of a boot, with what it says after the platform. -/
inductive Ends (config : Config) (c : Core) : Core → Protection → List Note → Prop where
  | noTable {e : Error} {notes : List Note} :
      config.Drafts ⟨.error e, false, notes⟩ →
      Ends config c c ⟨none, config.codeSize, false⟩ (notes ++ [.noTable e])
  | refused {t : RegionTable} {covers : Bool} {notes : List Note} {e : LoadError} :
      config.Drafts ⟨.ok t, covers, notes⟩ → c.regionCount.toNat < t.length →
      c.load t = .ok (c, .error e) →
      Ends config c c ⟨some t, config.codeSize, false⟩ (notes ++ [.loadFailed e])
  | loaded {t : RegionTable} {covers : Bool} {notes : List Note} {c' : Core} :
      config.Drafts ⟨.ok t, covers, notes⟩ → t.length ≤ c.regionCount.toNat →
      c.load t = .ok (c', .ok ()) →
      Ends config c c' ⟨some t, config.codeSize, covers⟩
        (notes ++ if covers then [.protecting t] else [])

variable {config : Config} {c c' : Core} {p : Protection} {notes : List Note}

theorem exists_ends (config : Config) (h16 : c.regionCount.toNat ≤ 16) :
    ∃ c' p notes, boot config c = .ok (c', p, .platform :: notes) ∧ Ends config c c' p notes := by
  have hdrafts := config.ofConfig_drafts
  cases htable : (Draft.ofConfig config).table with
  | error e =>
    -- without a table nothing is covered
    have hcovers : (Draft.ofConfig config).covers = false := by
      generalize Draft.ofConfig config = draft at hdrafts htable
      cases hdrafts with
      | rejected => rfl
      | cornered => rfl
      | protecting => cases htable
      | degraded => cases htable
    have hdraft : Draft.ofConfig config = ⟨.error e, false, (Draft.ofConfig config).notes⟩ := by
      rw [← htable, ← hcovers]
    exact ⟨_, _, _, boot_of_error htable, .noTable (hdraft ▸ hdrafts)⟩
  | ok t =>
    have hdraft : Draft.ofConfig config =
        ⟨.ok t, (Draft.ofConfig config).covers, (Draft.ofConfig config).notes⟩ := by
      rw [← htable]
    by_cases hfit : t.length ≤ c.regionCount.toNat
    · obtain ⟨c', hload, -, hboot⟩ := boot_of_fits htable hfit h16
      exact ⟨c', _, _, hboot, .loaded (hdraft ▸ hdrafts) hfit hload⟩
    · obtain ⟨e, hload, hboot⟩ := boot_of_not_fits htable (Nat.not_le.mp hfit)
      exact ⟨c, _, _, hboot, .refused (hdraft ▸ hdrafts) (Nat.not_le.mp hfit) hload⟩

theorem Ends.active_iff (h : Ends config c c' p notes) :
    p.active = true ↔ config.validate = .ok () ∧
      ∃ l, config.Cuts l ∧ l.length + 2 ≤ c.regionCount.toNat := by
  constructor
  · intro hactive
    cases h with
    | noTable => cases hactive
    | refused => cases hactive
    | loaded hdrafts hfit =>
      cases hdrafts with
      | degraded => cases hactive
      | protecting hvalid hcuts ht =>
        rw [(hcuts.assembles ht).length_eq] at hfit
        exact ⟨hvalid, _, hcuts, hfit⟩
  · rintro ⟨hvalid, l, hcuts, hroom⟩
    cases h with
    | noTable hdrafts =>
      cases hdrafts with
      | rejected hinvalid =>
        rw [hvalid] at hinvalid
        cases hinvalid
      | cornered _ hshort => exact absurd hshort hcuts.not_fallsShort
    | refused hdrafts hnoroom =>
      cases hdrafts with
      | degraded _ hshort => exact absurd hshort hcuts.not_fallsShort
      | protecting _ hcuts' ht =>
        rw [(hcuts'.assembles ht).length_eq, hcuts'.unique hcuts] at hnoroom
        omega
    | loaded hdrafts =>
      cases hdrafts with
      | degraded _ hshort => exact absurd hshort hcuts.not_fallsShort
      | protecting => rfl

theorem Ends.table_eq_none_iff (h : Ends config c c' p notes) :
    p.table = none ↔ config.validate ≠ .ok () ∨
      ∃ s, config.FallsShort s ∧
        0xFFFFFFFF < config.codeSize.toNat + config.guardSize.toNat - 1 := by
  constructor
  · intro htable
    cases h with
    | noTable hdrafts =>
      cases hdrafts with
      | rejected hinvalid =>
        rw [hinvalid]
        exact .inl nofun
      | cornered _ hshort _ hreach => exact .inr ⟨_, hshort, hreach⟩
    | refused => cases htable
    | loaded => cases htable
  · intro hwhy
    -- a table shows that none of the two reasons holds
    have hnone : ∀ {t covers notes}, ¬ config.Drafts ⟨.ok t, covers, notes⟩ := by
      intro t covers notes hdrafts
      cases hdrafts with
      | protecting hvalid hcuts =>
        rcases hwhy with hinvalid | ⟨s, hshort, _⟩
        · exact hinvalid hvalid
        · exact hcuts.not_fallsShort hshort
      | degraded hvalid _ ht =>
        rcases hwhy with hinvalid | ⟨s, _, hreach⟩
        · exact hinvalid hvalid
        · have hlt := (RegionTable.assembles_of_unprotected ht).reach_lt
          simp only [UInt32.size] at hlt
          omega
    cases h with
    | noTable => rfl
    | refused hdrafts => exact absurd hdrafts hnone
    | loaded hdrafts => exact absurd hdrafts hnone

/-- Without a table, or without room for it, nothing is touched. -/
theorem Ends.untouched (h : Ends config c c' p notes)
    (hnone : p.table = none ∨ ∃ t, p.table = some t ∧ c.regionCount.toNat < t.length) : c' = c := by
  cases h with
  | noTable => rfl
  | refused => rfl
  | loaded _ hfit =>
    rcases hnone with hnone | ⟨t, ht, hlt⟩
    · cases hnone
    · cases ht
      omega

/-- A unit with the configured number of regions takes the table. -/
theorem Ends.load_eq_ok (h : Ends config c c' p notes) {t : RegionTable} (ht : p.table = some t)
    (hcount : config.hardwareRegions ≤ c.regionCount) : c.load t = .ok (c', .ok ()) := by
  have hcount := UInt8.le_iff_toNat_le.mp hcount
  cases h with
  | noTable => cases ht
  | refused hdrafts hnoroom =>
    have hlen := hdrafts.length_le
    omega
  | loaded _ _ hload =>
    cases ht
    exact hload

/-! ## The decision -/

/-- What comes of a boot, read off the configuration and the number of regions. -/
structure Decides (config : Config) (c c' : Core) (p : Protection) : Prop where
  active_iff : p.active = true ↔ config.validate = .ok () ∧
    ∃ l, config.Cuts l ∧ l.length + 2 ≤ c.regionCount.toNat
  table_eq_none_iff : p.table = none ↔ config.validate ≠ .ok () ∨
    ∃ s, config.FallsShort s ∧ 0xFFFFFFFF < config.codeSize.toNat + config.guardSize.toNat - 1
  protectedSize_eq : p.protectedSize = config.codeSize
  untouched : (p.table = none ∨ ∃ t, p.table = some t ∧ c.regionCount.toNat < t.length) → c' = c
  loads : config.validate = .ok () → ∀ t, p.table = some t →
    config.hardwareRegions ≤ c.regionCount → c.load t = .ok (c', .ok ())

/-- **A boot decides by its configuration.** Every boot comes to an end. It ends active exactly if
the configuration is valid, the image can be cut, and the unit has room for the blocks and two more
regions. Of a valid configuration, the sizes can be subdivided as asked, and a layout that was found
passes its check and has a table; so there is no table only if the image can neither be cut nor
leaves a place for the guard. A boot that loads nothing leaves the core as it was. -/
theorem establish_decides (config : Config) {c : Core} (log : Log)
    (h16 : c.regionCount.toNat ≤ 16) :
    (∃ c' p log', establish config c log = .ok (c', p, log') ∧ Decides config c c' p) ∧
      (config.validate = .ok () →
        ∃ sizes, SizeTable.reference.resubdivide config.subdivisions.toNat = .ok sizes ∧
          ∀ l, Layout.cover config.codeSize.toNat config.maxCodeSlots.toNat sizes = .ok l →
            l.check config.codeSize.toNat sizes = .ok () ∧
              ∃ t, RegionTable.build l config.codeSize config = .ok t) := by
  constructor
  · obtain ⟨c', p, notes, hboot, hends⟩ := exists_ends config h16
    have hsize : p.protectedSize = config.codeSize := by cases hends <;> rfl
    exact ⟨c', p, _, establish_eq_ok hboot log, hends.active_iff, hends.table_eq_none_iff, hsize,
      hends.untouched, fun _ _ ht hcount => hends.load_eq_ok ht hcount⟩
  · intro hvalid
    have hv := Config.valid_of_validate hvalid
    obtain ⟨sizes, hsizes, -⟩ := SizeTable.exists_resubdivide hv.subdivisions
    exact ⟨sizes, hsizes, fun l hcover =>
      ⟨Layout.check_of_cover hcover, hv.exists_build hsizes hcover⟩⟩

/-- An image that ends so close to the end of the address space that no guard fits behind it, on a
unit of which an earlier program left all regions on. It has no table, and the unit keeps them. -/
theorem establish_decides_cornered :
    ∃ p log', establish { Config.reference with codeSize := 0xFFFFFFF0 }
        { Core.reset 8 64 with regions := .replicate 16 ⟨0, 0x3F⟩ } {} =
          .ok ({ Core.reset 8 64 with regions := .replicate 16 ⟨0, 0x3F⟩ }, p, log') ∧
      p.table = none ∧ p.active = false ∧ p.protectedSize = 0xFFFFFFF0 := by
  obtain ⟨⟨c', p, log', hrun, hdecides⟩, -⟩ :=
    establish_decides { Config.reference with codeSize := 0xFFFFFFF0 } {}
      (c := { Core.reset 8 64 with regions := .replicate 16 ⟨0, 0x3F⟩ }) (by decide)
  have hshort : Config.FallsShort { Config.reference with codeSize := 0xFFFFFFF0 }
      ⟨0xFFE7FFF0, 6⟩ := ⟨_, rfl, rfl⟩
  have htable := hdecides.table_eq_none_iff.mpr (.inr ⟨_, hshort, by decide⟩)
  cases hdecides.untouched (.inl htable)
  refine ⟨p, log', hrun, htable, ?_, hdecides.protectedSize_eq⟩
  rw [Bool.eq_false_iff, ne_eq, hdecides.active_iff]
  rintro ⟨-, l, hcuts, -⟩
  exact hcuts.not_fallsShort hshort

end Protection
end CodeGuard
