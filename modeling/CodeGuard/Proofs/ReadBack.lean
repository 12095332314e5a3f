import CodeGuard.Proofs.Loading
import CodeGuard.Protection

/-!
# CodeGuard.Proofs.ReadBack

Reading the registers back.

* `Snapshot.ofCore_eq_ok`: each region is read as it stands, and only the selector moves.
* `Snapshot.matchesTable_iff`: what was read matches a table exactly if each of its slots stands in
  the registers of its number.
-/

namespace CodeGuard

namespace Core

variable {c c' : Core}

/-- Region `k` as it stands in its registers. -/
def reading (c : Core) (k : Nat) : Reading :=
  ⟨UInt8.ofNat k, c.regions[k]?.getD .zero⟩

/-- The selection of `n` regions, the first of them `id`. -/
def selectOps (id n : Nat) : List BusOp :=
  (List.range' id n).map fun k => .selectRegion (UInt8.ofNat k)

theorem reading_eq_ofSlot_iff {k : Nat} (hk : k < 16) {s : Slot} :
    c.reading k = Reading.ofSlot s ↔ s.id.toNat = k ∧ c.region k = .ok s.descriptor := by
  have hid : UInt8.ofNat k = s.id ↔ s.id.toNat = k := by
    rw [← UInt8.toNat_inj, UInt8.toNat_ofNat_of_lt' (show k < 256 by omega), eq_comm]
  have hregion : c.region k = .ok s.descriptor ↔ c.regions[k] = s.descriptor := by
    rw [region, dif_pos hk, Except.ok.injEq]
  rw [hregion, ← hid]
  simp [reading, Reading.ofSlot, hk, Slot.descriptor]

theorem selectOps_succ (id n : Nat) :
    selectOps id (n + 1) = .selectRegion (UInt8.ofNat id) :: selectOps (id + 1) n := by
  simp [selectOps, List.range'_succ]

theorem issueAll_selectOps (n : Nat) : ∀ (c : Core) (id : Nat),
    ∃ i, c.issueAll (selectOps id n) = .ok (c.moved i c.regions (selectOps id n)) := by
  induction n with
  | zero =>
    intro c id
    exact ⟨c.selected, by rw [selectOps, List.range'_zero, List.map_nil, moved_self, issueAll]⟩
  | succ n ih =>
    intro c id
    obtain ⟨i, hrest⟩ := ih
      (c.moved (UInt8.ofNat id) c.regions [.selectRegion (UInt8.ofNat id)]) (id + 1)
    refine ⟨i, ?_⟩
    simp only [selectOps_succ, issueAll, issue_selectRegion, hrest, regions_moved, moved_moved,
      List.cons_append, List.nil_append]

end Core

namespace Snapshot

variable {c c' : Core}

/-- Each region that the unit claims to have is read as it stands. -/
theorem readFrom_eq_ok (n : Nat) : ∀ {c : Core} {id : Nat}, id + n ≤ c.regionCount.toNat →
    c.regionCount.toNat ≤ 16 → c.issueAll (Core.selectOps id n) = .ok c' →
    readFrom c n id = .ok (c', (List.range' id n).map c.reading) := by
  induction n with
  | zero =>
    intro c id _ _ hsel
    cases hsel
    rfl
  | succ n ih =>
    intro c id hn h16 hsel
    have hid : (UInt8.ofNat id).toNat = id := UInt8.toNat_ofNat_of_lt' (show id < 256 by omega)
    have hlt : id < 16 := by omega
    have hclaimed : UInt8.ofNat id < c.regionCount := UInt8.lt_iff_toNat_lt.mpr (by omega)
    simp only [Core.selectOps_succ, Core.issueAll, Core.issue_selectRegion] at hsel
    have hrest := ih (c := c.moved (UInt8.ofNat id) c.regions [.selectRegion (UInt8.ofNat id)])
      (by rw [Core.regionCount_moved]; omega) h16 hsel
    have hread : (c.moved (UInt8.ofNat id) c.regions
        [.selectRegion (UInt8.ofNat id)]).selectedRegion = .ok c.regions[id] := by
      simp [Core.selectedRegion, Core.region, hclaimed, hid, hlt]
    simp only [readFrom, Core.issue_selectRegion, hread, hrest]
    simp [Core.reading, List.range'_succ, hlt]

/-- The first `count` regions, or all that the unit claims to have, are read as they stand. -/
theorem ofCore_eq_ok (h16 : c.regionCount.toNat ≤ 16) (count : UInt8) :
    ∃ i, c.issueAll (Core.selectOps 0 (min count.toNat c.regionCount.toNat)) =
        .ok (c.moved i c.regions (Core.selectOps 0 (min count.toNat c.regionCount.toNat))) ∧
      ofCore c count = .ok
        (c.moved i c.regions (Core.selectOps 0 (min count.toNat c.regionCount.toNat)),
          ⟨c.control, (List.range' 0 (min count.toNat c.regionCount.toNat)).map c.reading⟩) := by
  obtain ⟨i, hsel⟩ := Core.issueAll_selectOps (min count.toNat c.regionCount.toNat) c 0
  have hread := readFrom_eq_ok _ (by omega) h16 hsel
  exact ⟨i, hsel, by simp only [ofCore, hread]⟩

theorem matchesTable_iff {t : RegionTable} {n : Nat} (hn : n ≤ 16) (control : UInt32) :
    matchesTable ⟨control, (List.range' 0 n).map c.reading⟩ t = true ↔
      ∀ s ∈ t.slots, s.id.toNat < n ∧ c.region s.id.toNat = .ok s.descriptor := by
  rw [matchesTable, List.all_eq_true]
  refine forall₂_congr fun s _ => ?_
  rw [List.any_eq_true]
  constructor
  · rintro ⟨r, hr, heq⟩
    obtain ⟨k, hk, rfl⟩ := List.mem_map.mp hr
    rw [List.mem_range'_1] at hk
    obtain ⟨rfl, hregion⟩ :=
      (Core.reading_eq_ofSlot_iff (by omega)).mp (eq_of_beq heq)
    exact ⟨by omega, hregion⟩
  · rintro ⟨hid, hregion⟩
    refine ⟨c.reading s.id.toNat, List.mem_map.mpr ⟨s.id.toNat, ?_, rfl⟩, ?_⟩
    · rw [List.mem_range'_1]
      omega
    · rw [(Core.reading_eq_ofSlot_iff (by omega)).mpr ⟨rfl, hregion⟩, beq_self_eq_true]

end Snapshot

namespace Protection

variable {c : Core}

theorem dump_eq_ok (h16 : c.regionCount.toNat ≤ 16) :
    ∃ i, c.issueAll (Core.selectOps 0 c.regionCount.toNat) =
        .ok (c.moved i c.regions (Core.selectOps 0 c.regionCount.toNat)) ∧
      dump c = .ok (c.moved i c.regions (Core.selectOps 0 c.regionCount.toNat),
        ⟨c.control, (List.range' 0 c.regionCount.toNat).map c.reading⟩) := by
  have hread := Snapshot.ofCore_eq_ok h16 c.regionCount
  rwa [Nat.min_self] at hread

end Protection
end CodeGuard
