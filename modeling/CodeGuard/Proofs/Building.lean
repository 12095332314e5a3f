import Mathlib.Order.Bounds.Defs
import CodeGuard.Proofs.Table

/-!
# CodeGuard.Proofs.Building

When a table can be built.

* `Config.BackgroundFits`, `Config.GuardFits`, `Config.GuardReaches`: what is asked of a
  configuration. `RegionTable.Fits.exists_assemble`: nothing more is asked, but few enough blocks.
* `RegionTable.Refuses`: the reasons for which no table is built, each where the ones before it do
  not hold.
* `RegionTable.Encodes`: what is in a table that was built.
* `RegionTable.build_answers`: there is a table, with that in it, or one of these reasons.
-/

namespace CodeGuard

/-! ## What is asked of a configuration -/

theorem RegionSize.exists_ofBytes? {n : Nat} (hpow : n.isPowerOfTwo) (hlo : 32 ≤ n)
    (hhi : n < UInt32.size) : ∃ s, ofBytes? n = some s := by
  rw [← Option.isSome_iff_exists, ofBytes?_isSome_iff]
  obtain ⟨k, rfl⟩ := hpow
  have hk : k < 32 := (Nat.pow_lt_pow_iff_right (a := 2) (by decide)).mp hhi
  exact ⟨⟨k, rfl⟩, hlo, Nat.pow_le_pow_right (by decide) (Nat.le_of_lt_succ hk)⟩

namespace Config

/-- The background is what one region can describe. -/
def BackgroundFits (config : Config) : Prop :=
  config.background.size.toNat.isPowerOfTwo ∧ 32 ≤ config.background.size.toNat ∧
    config.background.size.toNat ∣ config.background.base.toNat

/-- The guard has the size of a region. -/
def GuardFits (config : Config) : Prop :=
  config.guardSize.toNat.isPowerOfTwo ∧ 32 ≤ config.guardSize.toNat

/-- There is a place for the guard behind the code. -/
def GuardReaches (config : Config) (codeEnd : UInt32) : Prop :=
  ∃ m, codeEnd.toNat ≤ m ∧ m < UInt32.size ∧ config.guardSize.toNat ∣ m

variable {config : Config} {codeEnd : UInt32}

theorem backgroundFits_iff : config.BackgroundFits ↔ config.background.WellFormed := by
  rw [Window.WellFormed, BackgroundFits, Nat.dvd_iff_mod_eq_zero]

theorem GuardFits.exists_ofBytes? (h : config.GuardFits) :
    ∃ size, RegionSize.ofBytes? config.guardSize.toNat = some size :=
  RegionSize.exists_ofBytes? h.1 h.2 config.guardSize.toNat_lt_size

theorem GuardFits.dvd (h : config.GuardFits) : config.guardSize.toNat ∣ UInt32.size :=
  dvd_of_isPowerOfTwo_of_le h.1 ⟨32, rfl⟩ (Nat.le_of_lt config.guardSize.toNat_lt)

/-- The last place for a guard ends with the address space, since its size divides 2³². -/
theorem GuardFits.reaches_iff (h : config.GuardFits) : config.GuardReaches codeEnd ↔
    codeEnd.toNat + (config.guardSize.toNat - 1) < UInt32.size := by
  have hlo := h.2
  have hhi := config.guardSize.toNat_lt_size
  constructor
  · rintro ⟨m, hle, hlt, hdvd⟩
    have hlast := add_le_of_dvd_of_lt hdvd h.dvd hlt
    omega
  · intro hreach
    exact ⟨UInt32.size - config.guardSize.toNat, by omega, by omega,
      Nat.dvd_sub h.dvd (Nat.dvd_refl _)⟩

end Config

/-! ## The three roles of a slot -/

namespace Slot

variable {config : Config} {codeEnd : UInt32}

theorem exists_ofBlock {b : Block} {size : RegionSize}
    (hsize : RegionSize.ofBytes? b.size = some size) (halign : b.base % b.size = 0) (id : UInt8) :
    ∃ s, ofBlock id b = .ok s := by
  simp [ofBlock, hsize, halign]

theorem exists_ofBackground (h : config.BackgroundFits) (executable : Bool) :
    ∃ s, ofBackground config.background executable = .ok s := by
  obtain ⟨size, hsize⟩ := RegionSize.exists_ofBytes? h.1 h.2.1 config.background.size.toNat_lt_size
  simp [ofBackground, Config.backgroundFits_iff.mp h, hsize]

theorem ofBackground_of_not_fits (h : ¬ config.BackgroundFits) (executable : Bool) :
    ofBackground config.background executable = .error .invalidAlignment := by
  rw [ofBackground, if_pos (mt Config.backgroundFits_iff.mpr h)]

/-- The last address that the guard could need. -/
theorem guardBase?_isSome_iff {codeEnd guardSize : UInt32} :
    (∃ base, guardBase? codeEnd guardSize = some base) ↔
      codeEnd.toNat + (guardSize.toNat - 1) < UInt32.size := by
  simp only [guardBase?]
  split
  · rename_i h
    simp [h]
  · rename_i h
    simp [h]

theorem ofGuard_of_not_fits (h : ¬ config.GuardFits) (id : UInt8) :
    ofGuard id codeEnd config.guardSize = .error .invalidRegionSize := by
  cases hsize : RegionSize.ofBytes? config.guardSize.toNat with
  | none => simp only [ofGuard, hsize]
  | some size =>
    obtain ⟨hpow, hlo, -⟩ := RegionSize.ofBytes?_isSome_iff.mp (Option.isSome_of_eq_some hsize)
    exact absurd ⟨hpow, hlo⟩ h

theorem ofGuard_of_not_reaches (h : config.GuardFits) (hplace : ¬ config.GuardReaches codeEnd)
    (id : UInt8) : ofGuard id codeEnd config.guardSize = .error .invalidParameter := by
  obtain ⟨size, hsize⟩ := h.exists_ofBytes?
  have hbase : guardBase? codeEnd config.guardSize = none := by
    rw [guardBase?, if_neg (mt h.reaches_iff.mpr hplace)]
  simp only [ofGuard, hsize, hbase]

theorem exists_ofGuard (h : config.GuardFits) (hplace : config.GuardReaches codeEnd) (id : UInt8) :
    ∃ s, ofGuard id codeEnd config.guardSize = .ok s := by
  obtain ⟨size, hsize⟩ := h.exists_ofBytes?
  obtain ⟨base, hbase⟩ := guardBase?_isSome_iff.mpr (h.reaches_iff.mp hplace)
  simp [ofGuard, hsize, hbase]

/-- No multiple of its size lies between the end of the code and the guard. -/
theorem Guards.isLeast {s : Slot} {guardSize : UInt32} (h : s.Guards codeEnd guardSize) :
    IsLeast {m | guardSize.toNat ∣ m ∧ codeEnd.toNat ≤ m} s.base.toNat := by
  obtain ⟨hdvd, hlo, hhi⟩ := h.bounds
  refine ⟨⟨hdvd, hlo⟩, ?_⟩
  rintro m ⟨hm, hle⟩
  by_contra hlt
  have hnext := add_le_of_dvd_of_lt hm hdvd (Nat.not_le.mp hlt)
  omega

/-- The address space is a multiple of the size of every region. -/
theorem Placed.end_le {s : Slot} (h : s.Placed) :
    s.base.toNat + s.size.bytes ≤ UInt32.size := by
  have hdvd : s.size.bytes ∣ UInt32.size :=
    dvd_of_isPowerOfTwo_of_le s.size.bytes_isPowerOfTwo ⟨32, rfl⟩
      (Nat.le_trans s.size.bytes_le (by decide))
  exact add_le_of_dvd_of_lt h.aligned hdvd s.base.toNat_lt

end Slot

/-! ## Tables -/

namespace RegionTable

theorem exists_codeSlots {sizes : SizeTable} {a e : Nat} {bs : List Block} (h : Tiles sizes a e bs) :
    ∀ n, ∃ ss, codeSlots n bs = .ok ss := by
  have hall := h.mem_sizes
  clear h
  induction bs with
  | nil => exact fun n => ⟨[], rfl⟩
  | cons b rest ih =>
    intro n
    obtain ⟨hsize, halign⟩ := hall b List.mem_cons_self
    obtain ⟨size, hsize⟩ := Option.isSome_iff_exists.mp (sizes.listable b.size hsize).1
    obtain ⟨s, hs⟩ := Slot.exists_ofBlock hsize halign (UInt8.ofNat n)
    obtain ⟨ss, hss⟩ := ih (fun b' hb' => hall b' (List.mem_cons_of_mem _ hb')) (n + 1)
    exact ⟨s :: ss, by simp only [codeSlots, hs, hss]⟩

theorem Assembles.reach_lt {t : RegionTable} {l : Layout} {codeEnd : UInt32} {config : Config}
    {x : Bool} (h : t.Assembles l codeEnd config x) :
    codeEnd.toNat + (config.guardSize.toNat - 1) < UInt32.size :=
  Slot.guardBase?_isSome_iff.mp ⟨_, h.guard.base⟩

theorem Assembles.length_eq {t : RegionTable} {l : Layout} {codeEnd : UInt32} {config : Config}
    {x : Bool} (h : t.Assembles l codeEnd config x) : t.length = l.length + 2 := by
  rw [RegionTable.length, Layout.length, h.code.length_eq]

/-- The reasons for which no table is built, each where the ones before it do not hold. -/
inductive Refuses (l : Layout) (codeEnd : UInt32) (config : Config) : Error → Prop where
  | crowded : 14 < l.length → Refuses l codeEnd config .tooManyRegions
  | background : l.length ≤ 14 → ¬ config.BackgroundFits → Refuses l codeEnd config .invalidAlignment
  | guardSize :
      l.length ≤ 14 → config.BackgroundFits → ¬ config.GuardFits →
      Refuses l codeEnd config .invalidRegionSize
  | guardPlace :
      l.length ≤ 14 → config.BackgroundFits → config.GuardFits → ¬ config.GuardReaches codeEnd →
      Refuses l codeEnd config .invalidParameter

/-- None of the reasons holds. -/
structure Fits (l : Layout) (codeEnd : UInt32) (config : Config) : Prop where
  length_le : l.length ≤ 14
  background : config.BackgroundFits
  guardSize : config.GuardFits
  guardPlace : config.GuardReaches codeEnd

/-- What is in a table: the regions by ascending numbers, with the background as it was given, the
blocks as they were found, and the guard at the first place for it. -/
structure Encodes (t : RegionTable) (l : Layout) (codeEnd : UInt32) (config : Config) : Prop where
  numbered : t.slots.map (·.id.toNat) = List.range (l.length + 2)
  background : t.background.base = config.background.base ∧
    t.background.size.bytes = config.background.size.toNat
  code : t.code.map (fun s => (⟨s.base.toNat, s.size.bytes, s.eighths⟩ : Block)) = l.blocks
  codeSize : t.codeSize = l.covered
  aligned : ∀ s ∈ t.slots, s.size.bytes ∣ s.base.toNat
  within : ∀ s ∈ t.slots, s.base.toNat + s.size.bytes ≤ UInt32.size
  guardSize : t.guard.size.bytes = config.guardSize.toNat
  guardBase :
    IsLeast {m | config.guardSize.toNat ∣ m ∧ codeEnd.toNat ≤ m} t.guard.base.toNat

variable {sizes : SizeTable} {total : Nat} {l : Layout} {codeEnd : UInt32} {config : Config}
  {x : Bool} {e : Error} {t : RegionTable}

theorem refuses_or_fits (l : Layout) (codeEnd : UInt32) (config : Config) :
    (∃ e, Refuses l codeEnd config e) ∨ Fits l codeEnd config := by
  by_cases hlen : l.length ≤ 14
  · by_cases hback : config.BackgroundFits
    · by_cases hguard : config.GuardFits
      · by_cases hplace : config.GuardReaches codeEnd
        · exact .inr ⟨hlen, hback, hguard, hplace⟩
        · exact .inl ⟨_, .guardPlace hlen hback hguard hplace⟩
      · exact .inl ⟨_, .guardSize hlen hback hguard⟩
    · exact .inl ⟨_, .background hlen hback⟩
  · exact .inl ⟨_, .crowded (Nat.not_le.mp hlen)⟩

/-- The blocks of a layout are never what is refused. -/
theorem Refuses.assemble (h : Refuses l codeEnd config e) (htiles : Tiles sizes 0 total l.blocks)
    (x : Bool) : assemble l codeEnd config x = .error e := by
  obtain ⟨code, hcode⟩ := exists_codeSlots htiles 1
  have hroom : l.length ≤ 14 → ¬ Limits.maxRegions < Config.regionsNeeded l.length :=
    fun hlen => Nat.not_lt.mpr (Nat.add_le_add_right hlen 2)
  cases h with
  | crowded hlen =>
    have hfull : Limits.maxRegions < Config.regionsNeeded l.length := Nat.add_lt_add_right hlen 2
    simp only [assemble, if_pos hfull]
  | background hlen hback =>
    simp only [assemble, if_neg (hroom hlen), hcode, Slot.ofBackground_of_not_fits hback]
  | guardSize hlen hback hguard =>
    obtain ⟨background, hback⟩ := Slot.exists_ofBackground hback x
    simp only [assemble, if_neg (hroom hlen), hcode, hback, Slot.ofGuard_of_not_fits hguard]
  | guardPlace hlen hback hguard hplace =>
    obtain ⟨background, hback⟩ := Slot.exists_ofBackground hback x
    simp only [assemble, if_neg (hroom hlen), hcode, hback,
      Slot.ofGuard_of_not_reaches hguard hplace]

theorem Fits.exists_assemble (h : Fits l codeEnd config) (htiles : Tiles sizes 0 total l.blocks)
    (x : Bool) : ∃ t, assemble l codeEnd config x = .ok t := by
  have hroom : ¬ Limits.maxRegions < Config.regionsNeeded l.length :=
    Nat.not_lt.mpr (Nat.add_le_add_right h.length_le 2)
  obtain ⟨code, hcode⟩ := exists_codeSlots htiles 1
  obtain ⟨background, hback⟩ := Slot.exists_ofBackground h.background x
  obtain ⟨guard, hguard⟩ :=
    Slot.exists_ofGuard h.guardSize h.guardPlace (UInt8.ofNat (l.length + 1))
  exact ⟨⟨background, code, guard, codeEnd⟩,
    by simp only [assemble, if_neg hroom, hcode, hback, hguard]⟩

theorem Assembles.encodes (h : t.Assembles l codeEnd config x)
    (htiles : Tiles sizes 0 total l.blocks) : t.Encodes l codeEnd config := by
  have hplaced := (h.wellFormed htiles).placed
  exact {
    numbered := by rw [h.numbered, h.length_eq]
    background := ⟨h.background.base, h.background.bytes⟩
    code := blocks_of_protects h.code
    codeSize := h.codeSize_eq
    aligned := fun s hs => (hplaced s hs).aligned
    within := fun s hs => (hplaced s hs).end_le
    guardSize := h.guard.bytes
    guardBase := h.guard.isLeast }

/-- What comes of building a table is read off the inputs. -/
structure Answers (r : Except Error RegionTable) (l : Layout) (codeEnd : UInt32) (config : Config) :
    Prop where
  error_iff : ∀ e, r = .error e ↔ Refuses l codeEnd config e
  ok_iff : (∃ t, r = .ok t) ↔ Fits l codeEnd config
  encodes : ∀ t, r = .ok t → t.Encodes l codeEnd config

theorem assemble_answers (htiles : Tiles sizes 0 total l.blocks)
    (hbase : ∀ b ∈ l.blocks, b.base < UInt32.size) (codeEnd : UInt32) (config : Config) (x : Bool) :
    Answers (assemble l codeEnd config x) l codeEnd config where
  error_iff e := by
    refine ⟨fun he => ?_, fun h => h.assemble htiles x⟩
    rcases refuses_or_fits l codeEnd config with ⟨e', hrefuses⟩ | hfits
    · rw [hrefuses.assemble htiles x] at he
      cases he
      exact hrefuses
    · obtain ⟨t, ht⟩ := hfits.exists_assemble htiles x
      rw [ht] at he
      cases he
  ok_iff := by
    refine ⟨?_, fun h => h.exists_assemble htiles x⟩
    rintro ⟨t, ht⟩
    rcases refuses_or_fits l codeEnd config with ⟨e, hrefuses⟩ | hfits
    · rw [hrefuses.assemble htiles x] at ht
      cases ht
    · exact hfits
  encodes t ht := (assemble_eq_ok hbase ht).encodes htiles

/-- **A table is built for exactly the inputs that can be encoded.** For a layout that was found,
whatever the end of the code is said to be and whether or not the configuration is valid, there is
a table with the blocks of the layout and the guard at the first place for it; or there are too many
blocks, or the background is not what one region can describe, or the guard has no size of a region,
or it has no place behind the code, of which the first is reported. A table without code regions is
built on the same terms. -/
theorem build_answers {sizes : SizeTable} {total : UInt32} {maxSlots : Nat} {l : Layout}
    (h : Layout.cover total.toNat maxSlots sizes = .ok l) (codeEnd : UInt32) (config : Config) :
    Answers (build l codeEnd config) l codeEnd config ∧
      Answers (unprotected codeEnd config) .empty codeEnd config := by
  have htiles := (Layout.tiles_of_cover h).1
  refine ⟨assemble_answers htiles (base_lt_of_tiles htiles) codeEnd config false, ?_⟩
  exact assemble_answers (Tiles.nil (t := .reference)) (fun _ hb => nomatch hb) codeEnd config true

/-- Behind 104 KB a guard of 32 KB goes to 128 KB. Within 16 bytes of the end of the address space
there is no multiple of 32. -/
theorem build_answers_reference :
    Layout.cover 0x1A000 6 .reference = .ok ⟨[.whole 0 0x10000, ⟨0x10000, 0x10000, 5⟩]⟩ ∧
      (∃ t, build ⟨[.whole 0 0x10000, ⟨0x10000, 0x10000, 5⟩]⟩ 0x1A000
          { Config.reference with guardSize := 0x8000 } = .ok t ∧ t.guard.base = 0x20000 ∧
        t.Encodes ⟨[.whole 0 0x10000, ⟨0x10000, 0x10000, 5⟩]⟩ 0x1A000
          { Config.reference with guardSize := 0x8000 }) ∧
      Refuses ⟨[.whole 0 0x10000, ⟨0x10000, 0x10000, 5⟩]⟩ 0xFFFFFFF0 .reference .invalidParameter :=
  have h : Layout.cover (0x1A000 : UInt32).toNat 6 .reference =
    .ok ⟨[.whole 0 0x10000, ⟨0x10000, 0x10000, 5⟩]⟩ := by rfl
  ⟨h, ⟨_, rfl, rfl, (build_answers h _ _).1.encodes _ rfl⟩,
    ((build_answers h _ _).1.error_iff _).mp rfl⟩

end RegionTable
end CodeGuard
