import CodeGuard.Proofs.ReadBack

/-!
# CodeGuard.Proofs.Tampering

A table that was loaded reads back, and a change of its registers shows.

* `Core.Loaded.ofCore_matches`: after a load, a read-back matches exactly if it goes far enough.
* `Core.Loaded.ofCore_write_matches`: after one more write to a region it still matches exactly if
  the region is none of the table's or kept its value.
* `Core.Loaded.ofCore_text`: as text it is the header and the listing of the table.
* `Snapshot.ofCore_detects`: a read-back of any core, of one after a load, and of one that was
  written to since.
-/

namespace CodeGuard

/-- A write to a register of the selected region. -/
inductive BusOp.WritesRegion : BusOp → Prop where
  | setBase (value : UInt32) : WritesRegion (.setBase value)
  | setAttributes (value : UInt32) : WritesRegion (.setAttributes value)

namespace Core

variable {c c' c₁ : Core} {t : RegionTable}

theorem issue_writesRegion {op : BusOp} (hop : op.WritesRegion) (hsel : c.selected < c.regionCount)
    (h16 : c.selected.toNat < 16) :
    ∃ d, c.issue op =
      .ok (c.moved c.selected (c.regions.set c.selected.toNat d) [op]) := by
  cases hop with
  | setBase value => exact ⟨_, issue_setBase hsel h16⟩
  | setAttributes value => exact ⟨_, issue_setAttributes hsel h16⟩

theorem region_set_self {i : UInt8} {d : Descriptor} {ops : List BusOp} {j : Nat} (hj : j < 16) :
    (c.moved i (c.regions.set j d) ops).region j = .ok d := by
  simp [region, hj]

theorem region_set_of_ne {i : UInt8} {d : Descriptor} {ops : List BusOp} {j k : Nat} (hj : j < 16)
    (hk : k ≠ j) : (c.moved i (c.regions.set j d) ops).region k = c.region k := by
  by_cases h16 : k < 16
  · simp [region, h16, Vector.getElem_set_ne _ _ hk.symm]
  · simp [region, h16]

namespace Loaded

open Snapshot

theorem matchesTable_iff (h : c.Loaded t c') {n : Nat} (hn : n ≤ 16) (control : UInt32) :
    matchesTable ⟨control, (List.range' 0 n).map c'.reading⟩ t = true ↔ t.length ≤ n := by
  rw [Snapshot.matchesTable_iff hn, ← h.wellFormed.id_lt_iff]
  exact forall₂_congr fun s hs => and_iff_left (h.region_eq s hs)

/-- Only the region `r` may differ from what was loaded. -/
theorem matchesTable_write_iff (h : c.Loaded t c') {r n : Nat} (hfit : t.length ≤ n) (hn : n ≤ 16)
    (hkept : ∀ k, k ≠ r → c₁.region k = c'.region k) (control : UInt32) :
    matchesTable ⟨control, (List.range' 0 n).map c₁.reading⟩ t = true ↔
      t.length ≤ r ∨ c₁.region r = c'.region r := by
  have hids := h.wellFormed.id_lt_iff.mpr hfit
  rw [Snapshot.matchesTable_iff hn]
  constructor
  · intro hall
    refine (Nat.lt_or_ge r t.length).symm.imp_right fun hr => ?_
    -- the slot with the number `r`
    have hslot : r < t.slots.length := t.length_slots ▸ hr
    have hid := h.wellFormed.id_getElem hslot
    have hmem := List.getElem_mem hslot
    have hwant := (hall _ hmem).2
    rwa [← h.region_eq _ hmem, hid] at hwant
  · intro hr s hs
    refine ⟨hids s hs, ?_⟩
    rw [← h.region_eq s hs]
    by_cases hsr : s.id.toNat = r
    · have hlt := h.wellFormed.id_lt_iff.mpr (Nat.le_refl _) s hs
      rw [hsr] at hlt ⊢
      exact hr.resolve_left (Nat.not_le.mpr hlt)
    · exact hkept _ hsr

theorem readings_eq (h : c.Loaded t c') :
    (List.range' 0 t.length).map c'.reading = t.slots.map Reading.ofSlot := by
  have hlen := h.wellFormed.length_le
  refine List.ext_getElem (by simp) fun k hk _ => ?_
  rw [List.length_map, List.length_range'] at hk
  have hslot : k < t.slots.length := t.length_slots ▸ hk
  rw [List.getElem_map, List.getElem_map, List.getElem_range', Nat.zero_add, Nat.one_mul,
    reading_eq_ofSlot_iff (by omega)]
  have hid := h.wellFormed.id_getElem hslot
  have hregion := h.region_eq _ (List.getElem_mem hslot)
  rw [hid] at hregion
  exact ⟨hid, hregion⟩

theorem fits_loaded (h : c.Loaded t c') : t.length ≤ c'.regionCount.toNat := by
  rw [h.regionCount_eq]
  exact h.fits

theorem regionCount_loaded_le (h : c.Loaded t c') : c'.regionCount.toNat ≤ 16 := by
  rw [h.regionCount_eq]
  exact h.regionCount_le

theorem ofCore_matches (h : c.Loaded t c') (count : UInt8) :
    ∃ c'' s, ofCore c' count = .ok (c'', s) ∧
      (s.matchesTable t = true ↔ t.length ≤ count.toNat) := by
  have h16 := h.regionCount_loaded_le
  obtain ⟨i, -, hread⟩ := ofCore_eq_ok h16 count
  refine ⟨_, _, hread, (h.matchesTable_iff (by omega) _).trans ?_⟩
  rw [Nat.le_min, and_iff_left h.fits_loaded]

/-- Whatever was selected and recorded since the load. -/
theorem ofCore_write_matches (h : c.Loaded t c') {count r : UInt8} (hcount : t.length ≤ count.toNat)
    (hr : r < c.regionCount) (ops : List BusOp) {op : BusOp} (hop : op.WritesRegion) :
    ∃ c₁ c₂ s, (c'.moved r c'.regions ops).issue op = .ok c₁ ∧ ofCore c₁ count = .ok (c₂, s) ∧
      (s.matchesTable t = true ↔
        t.length ≤ r.toNat ∨ c₁.region r.toNat = c'.region r.toNat) := by
  have h16 := h.regionCount_loaded_le
  have hr16 : r.toNat < 16 := Nat.lt_of_lt_of_le (UInt8.lt_iff_toNat_lt.mp hr) h.regionCount_le
  obtain ⟨d, hissue⟩ := issue_writesRegion (c := c'.moved r c'.regions ops) hop
    (by simpa [h.regionCount_eq] using hr) hr16
  obtain ⟨i, -, hread⟩ := ofCore_eq_ok (c := (c'.moved r c'.regions ops).moved r
    (c'.regions.set r.toNat d) [op]) h16 count
  refine ⟨_, _, _, hissue, hread, h.matchesTable_write_iff ?_ ?_ ?_ _⟩
  · exact Nat.le_min.mpr ⟨hcount, h.fits_loaded⟩
  · exact Nat.le_trans (Nat.min_le_right _ _) h16
  · intro k hk
    exact region_set_of_ne (c := c'.moved r c'.regions ops) hr16 hk

theorem ofCore_text (h : c.Loaded t c') :
    ∃ c'' s, ofCore c' (UInt8.ofNat t.length) = .ok (c'', s) ∧
      s.text = "MPU: 1 HFNMIENA: 1 PRIVDEFENA: 1\n" ++ t.listing := by
  have hlen : (UInt8.ofNat t.length).toNat = t.length :=
    UInt8.toNat_ofNat_of_lt' (Nat.lt_of_le_of_lt h.wellFormed.length_le (by decide))
  have hheader : header ControlWord.running = "MPU: 1 HFNMIENA: 1 PRIVDEFENA: 1\n" := by
    decide +kernel
  obtain ⟨i, -, hread⟩ := ofCore_eq_ok h.regionCount_loaded_le (UInt8.ofNat t.length)
  rw [hlen, Nat.min_eq_left h.fits_loaded, h.readings_eq, h.control_eq] at hread
  refine ⟨_, _, hread, ?_⟩
  rw [text, hheader, List.map_map]
  rfl

end Loaded
end Core

namespace Snapshot

variable {c : Core} {t : RegionTable}

/-- **A read-back tells whether a table stands in the registers.** It moves the selector and nothing
else. It matches exactly if it reaches each slot's region and finds there the slot's two words. So
after a load it matches if it goes as far as the table; a write to a register since then shows if the
region is one of the table's and its value changed; and as text it is the listing of the table. -/
theorem ofCore_detects (ht : t.Accepted) (h16 : c.regionCount.toNat ≤ 16) (count : UInt8) :
    (∃ i s, ofCore c count = .ok (c.moved i c.regions
        (Core.selectOps 0 (min count.toNat c.regionCount.toNat)), s) ∧
      (s.matchesTable t = true ↔ ∀ slot ∈ t.slots,
        slot.id.toNat < min count.toNat c.regionCount.toNat ∧
        c.region slot.id.toNat = .ok ⟨slot.baseWord, slot.attributesWord⟩)) ∧
    ∀ c', c.load t = .ok (c', .ok ()) →
      (∃ c'' s, ofCore c' count = .ok (c'', s) ∧
        (s.matchesTable t = true ↔ t.length ≤ count.toNat)) ∧
      (t.length ≤ count.toNat → ∀ r < c.regionCount, ∀ ops op, op.WritesRegion →
        ∃ c₁ c₂ s, (c'.moved r c'.regions ops).issue op = .ok c₁ ∧ ofCore c₁ count = .ok (c₂, s) ∧
          (s.matchesTable t = true ↔
            t.length ≤ r.toNat ∨ c₁.region r.toNat = c'.region r.toNat)) ∧
      ∃ c'' s, ofCore c' (UInt8.ofNat t.length) = .ok (c'', s) ∧
        s.text = "MPU: 1 HFNMIENA: 1 PRIVDEFENA: 1\n" ++ t.listing := by
  constructor
  · obtain ⟨i, -, hread⟩ := ofCore_eq_ok h16 count
    exact ⟨i, _, hread, matchesTable_iff (by omega) _⟩
  · intro c' hload
    have hloaded := Core.loaded_of_load ht.wellFormed h16 hload
    exact ⟨hloaded.ofCore_matches count,
      fun hcount r hr ops op hop => hloaded.ofCore_write_matches hcount hr ops hop,
      hloaded.ofCore_text⟩

/-- Two writes to the first code region. The bits of a base under 32 are not kept, so setting them
changes nothing and does not show; switching the region off does. -/
theorem ofCore_detects_switch :
    ∃ t, RegionTable.build ⟨[.whole 0 0x10000, ⟨0x10000, 0x10000, 5⟩]⟩ 0x1A000 .reference = .ok t ∧
      ∃ c', (Core.reset 8 64).load t = .ok (c', .ok ()) ∧
        (∃ c₁ c₂ s, (c'.moved 1 c'.regions []).issue (.setBase 0x1F) = .ok c₁ ∧
          ofCore c₁ 4 = .ok (c₂, s) ∧ s.matchesTable t = true) ∧
        ∃ c₁ c₂ s, (c'.moved 1 c'.regions []).issue (.setAttributes 0) = .ok c₁ ∧
          ofCore c₁ 4 = .ok (c₂, s) ∧ s.matchesTable t = false := by
  have hcover : Layout.cover (0x1A000 : UInt32).toNat 6 .reference =
      .ok ⟨[.whole 0 0x10000, ⟨0x10000, 0x10000, 5⟩]⟩ := by rfl
  have hbuild : RegionTable.build ⟨[.whole 0 0x10000, ⟨0x10000, 0x10000, 5⟩]⟩ 0x1A000 .reference =
      .ok _ := rfl
  have haccepted := RegionTable.Accepted.build hcover hbuild
  obtain ⟨c', hload, hloaded⟩ := Core.load_eq_ok (c := .reset 8 64) haccepted.wellFormed
    (by decide) (by decide)
  obtain ⟨-, hafter⟩ := ofCore_detects haccepted (c := .reset 8 64) (by decide) 4
  obtain ⟨-, hwrite, -⟩ := hafter c' hload
  have hclaims : (1 : UInt8) < c'.regionCount := by
    rw [hloaded.regionCount_eq]
    decide
  have hone := hloaded.slot 1 (by decide) (by decide)
  have hbase : c'.regions[1].base = BaseWord.ofAddress 0x1F := by
    rw [hone]
    decide
  have hon : c'.regions[1].attributes ≠ 0 := by
    rw [hone]
    decide
  -- the first code region, selected
  have hselected : (c'.moved 1 c'.regions []).selected.toNat < 16 := by
    exact (by decide : 1 < 16)
  refine ⟨_, hbuild, c', hload, ?_, ?_⟩
  · obtain ⟨c₁, c₂, s, hissue, hread, hmatch⟩ :=
      hwrite (by decide) 1 (by decide) [] _ (.setBase 0x1F)
    refine ⟨c₁, c₂, s, hissue, hread, hmatch.mpr (.inr ?_)⟩
    rw [Core.issue_setBase hclaims hselected] at hissue
    cases hissue
    refine (Core.region_set_self hselected).trans ?_
    rw [← hbase]
    rfl
  · obtain ⟨c₁, c₂, s, hissue, hread, hmatch⟩ :=
      hwrite (by decide) 1 (by decide) [] _ (.setAttributes 0)
    refine ⟨c₁, c₂, s, hissue, hread, Bool.eq_false_iff.mpr fun h => ?_⟩
    rw [Core.issue_setAttributes hclaims hselected] at hissue
    cases hissue
    have hkept := (Core.region_set_self hselected).symm.trans
      ((hmatch.mp h).resolve_left (by decide))
    exact hon (congrArg Descriptor.attributes (Except.ok.inj hkept)).symm

end Snapshot
end CodeGuard
