import CodeGuard.Proofs.Budget
import CodeGuard.Proofs.Deciding
import CodeGuard.Proofs.Sizing

/-!
# CodeGuard.Proofs.Refining

Finer size tables. A table refines another one if it lists all its sizes and can make up each of
its sub-blocks from its own.

* `Tiles.refine`: every tiling under the coarser table is one under the finer, block for block.
* `Layout.cover_of_refines`: so a finer table never costs an image its layout, nor a block more.
* `Protection.establish_active_of_finer`: nor a boot its protection.
-/

namespace CodeGuard

variable {t t' : SizeTable}

namespace SizeTable

/-- More sizes, and sub-blocks at least as fine. -/
structure Refines (t' t : SizeTable) : Prop where
  sizes_subset : t.sizes ⊆ t'.sizes
  subdivisions_dvd : t.subdivisions ∣ t'.subdivisions

/-- The same sizes, of regions that are used whole only. -/
def undivided (t : SizeTable) : SizeTable :=
  { t with
    subdivisions := 1
    subdivisions_mem := by decide
    listable := fun s hs => ⟨(t.listable s hs).1, fun h => absurd h (Nat.lt_irrefl 1)⟩ }

theorem refines_undivided (t : SizeTable) : t.Refines t.undivided where
  sizes_subset := List.Subset.refl _
  subdivisions_dvd := Nat.one_dvd _

namespace Refines

variable {q s : Nat}

theorem subBlockSize_eq (hr : t'.Refines t) (hq : t'.subdivisions = t.subdivisions * q)
    (hs : s ∈ t.sizes) : t.subBlockSize s = q * t'.subBlockSize s := by
  have hpos := t.subdivisions_pos
  refine Nat.eq_of_mul_eq_mul_left hpos ?_
  rw [subdivisions_mul_subBlockSize hs, ← Nat.mul_assoc, ← hq,
    subdivisions_mul_subBlockSize (hr.sizes_subset hs)]

theorem lowest_eq (hq : t'.subdivisions = t.subdivisions * q) (a s k : Nat) :
    Block.lowest t a s k = Block.lowest t' a s (k * q) := by
  have hpos := t.subdivisions_pos
  have heighths : t.eighthsPerSubBlock = q * t'.eighthsPerSubBlock := by
    refine Nat.eq_of_mul_eq_mul_left hpos ?_
    rw [subdivisions_mul_eighthsPerSubBlock, ← Nat.mul_assoc, ← hq,
      subdivisions_mul_eighthsPerSubBlock]
  rw [Block.lowest, Block.lowest, heighths, Nat.mul_assoc]

end Refines
end SizeTable

theorem Tiles.refine {a e : Nat} {bs : List Block} (h : Tiles t a e bs) (hr : t'.Refines t) :
    Tiles t' a e bs := by
  induction h with
  | nil => exact .nil
  | whole hs ha _ ih => exact .whole (hr.sizes_subset hs) ha ih
  | @lowest a s k hs ha hk hkd =>
    -- each sub-block of the coarser table is `q` of the finer
    obtain ⟨q, hq⟩ := hr.subdivisions_dvd
    have hqpos : 0 < q := Nat.pos_of_mul_pos_left (hq ▸ t'.subdivisions_pos)
    rw [hr.subBlockSize_eq hq hs, SizeTable.Refines.lowest_eq hq, ← Nat.mul_assoc]
    refine .lowest (hr.sizes_subset hs) ha (Nat.mul_pos hk hqpos) ?_
    rw [hq]
    exact Nat.mul_lt_mul_of_pos_right hkd hqpos

namespace Layout

variable {total maxSlots : Nat} {l : Layout}

/-- **A finer table never costs blocks.** Whatever image has a layout under a table has one under
each that refines it, within the same budget and with no more blocks. -/
theorem cover_of_refines (hr : t'.Refines t) (h : cover total maxSlots t = .ok l) :
    ∃ l', cover total maxSlots t' = .ok l' ∧ l'.length ≤ l.length := by
  obtain ⟨htiles, hlen⟩ := tiles_of_cover h
  exact exists_cover_of_tiles (htiles.refine hr) hlen

/-- 300 KB take four regions if each has to be used whole, so they take no more than four when the
last may be cut. -/
theorem cover_of_refines_reference :
    cover 0x4B000 4 SizeTable.reference.undivided =
        .ok ⟨[.whole 0 0x40000, .whole 0x40000 0x8000, .whole 0x48000 0x2000,
          .whole 0x4A000 0x1000]⟩ ∧
      ∃ l', cover 0x4B000 4 .reference = .ok l' ∧ l'.length ≤ 4 :=
  have h : cover 0x4B000 4 SizeTable.reference.undivided =
    .ok ⟨[.whole 0 0x40000, .whole 0x40000 0x8000, .whole 0x48000 0x2000,
      .whole 0x4A000 0x1000]⟩ := by rfl
  ⟨h, cover_of_refines SizeTable.reference.refines_undivided h⟩

end Layout

/-! ## Boots -/

namespace Config

variable {config : Config} {d : UInt32} {l : Layout}

theorem validate_of_valid (h : config.Valid) : config.validate = .ok () := by
  have hcount : ¬ (config.hardwareRegions = 0 ∨
      Limits.maxRegions < config.hardwareRegions.toNat) := by
    rintro (hzero | hlt)
    · have hfits := h.fits
      rw [hzero] at hfits
      exact absurd hfits (Nat.not_add_one_le_zero _)
    · exact Nat.not_lt.mpr h.hardwareRegions_le hlt
  have hfits : ¬ config.hardwareRegions.toNat < regionsNeeded config.maxCodeSlots.toNat :=
    Nat.not_lt.mpr h.fits
  rw [validate, if_neg hcount, if_neg hfits, if_neg (not_not.mpr h.subdivisions),
    if_neg (not_not.mpr h.background),
    if_neg (not_not.mpr ⟨h.guard_isPowerOfTwo, h.thirtyTwo_le_guard⟩)]

theorem Valid.resubdivide (h : config.Valid) (hd : d.toNat ∈ [1, 2, 4, 8]) :
    Valid { config with subdivisions := d } where
  hardwareRegions_le := h.hardwareRegions_le
  fits := h.fits
  subdivisions := hd
  background := h.background
  guard_isPowerOfTwo := h.guard_isPowerOfTwo
  thirtyTwo_le_guard := h.thirtyTwo_le_guard

theorem Cuts.refine (h : config.Cuts l) (hd : d.toNat ∈ [1, 2, 4, 8])
    (hdvd : config.subdivisions.toNat ∣ d.toNat) :
    ∃ l', Cuts { config with subdivisions := d } l' ∧ l'.length ≤ l.length := by
  obtain ⟨sizes, hsizes, hcover⟩ := h
  obtain ⟨sizes', hsizes', -⟩ := SizeTable.exists_resubdivide hd
  obtain ⟨hlist, hsub⟩ := SizeTable.ofList_eq_ok hsizes
  obtain ⟨hlist', hsub'⟩ := SizeTable.ofList_eq_ok hsizes'
  have hr : sizes'.Refines sizes := {
    sizes_subset := by rw [hlist, hlist']; exact List.Subset.refl _
    subdivisions_dvd := by rwa [hsub, hsub'] }
  obtain ⟨htiles, hlen⟩ := Layout.tiles_of_cover hcover
  obtain ⟨l', hcover', hle⟩ := Layout.exists_cover_of_tiles (htiles.refine hr) hlen
  exact ⟨l', ⟨sizes', hsizes', hcover'⟩, hle⟩

end Config

/-- **A finer subdivision never costs a boot its protection.** A boot that ends active ends active
too when its regions may be cut into a multiple of as many sub-blocks. -/
theorem Protection.establish_active_of_finer {config : Config} {d : UInt32} {c c₁ : Core}
    {log log₁ : Log} {p : Protection} (h16 : c.regionCount.toNat ≤ 16)
    (hd : d.toNat ∈ [1, 2, 4, 8]) (hdvd : config.subdivisions.toNat ∣ d.toNat)
    (h : establish config c log = .ok (c₁, p, log₁)) (hactive : p.active = true) :
    ∃ c₂ p₂ log₂, establish { config with subdivisions := d } c log = .ok (c₂, p₂, log₂) ∧
      p₂.active = true := by
  obtain ⟨_, _, _, hboot, hends⟩ := exists_ends config h16
  rw [establish_eq_ok hboot] at h
  cases h
  obtain ⟨hvalid, l, hcuts, hroom⟩ := hends.active_iff.mp hactive
  obtain ⟨l', hcuts', hle⟩ := hcuts.refine hd hdvd
  obtain ⟨c₂, p₂, notes₂, hboot', hends'⟩ := exists_ends { config with subdivisions := d } h16
  refine ⟨c₂, p₂, _, establish_eq_ok hboot' log, hends'.active_iff.mpr ⟨?_, l', hcuts', ?_⟩⟩
  · exact Config.validate_of_valid ((Config.valid_of_validate hvalid).resubdivide hd)
  · omega

end CodeGuard
