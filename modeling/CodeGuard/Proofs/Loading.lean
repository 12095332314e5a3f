import CodeGuard.Load
import CodeGuard.Proofs.Table

/-!
# CodeGuard.Proofs.Loading

The registers after a load. A load is three runs of operations, one after the other: slot by slot,
the leftover regions, and the registers around them. Each run touches the selector, the region
registers and the trace only.

* `Core.issueAll_slots`: the registers of each slot's number hold its two words, all others are
  kept.
* `Core.issueAll_clearOps`: the regions in the given stretch are off, all others are kept.
* `Core.load_eq_ok`: both, for a whole table, from any core with room for it.
-/

namespace CodeGuard
namespace Core

variable {c : Core}

/-- `c` with other region registers, another selector, and `ops` at the end of its trace. -/
def moved (c : Core) (selected : UInt8) (regions : Vector Descriptor 16) (ops : List BusOp) :
    Core :=
  { c with selected, regions, trace := c.trace ++ ops.toArray }

section Moved

variable {i j : UInt8} {rs rs' : Vector Descriptor 16} {ops ops' : List BusOp}

@[simp] theorem regionCount_moved : (c.moved i rs ops).regionCount = c.regionCount := rfl

@[simp] theorem selected_moved : (c.moved i rs ops).selected = i := rfl

@[simp] theorem regions_moved : (c.moved i rs ops).regions = rs := rfl

@[simp] theorem moved_moved :
    (c.moved i rs ops).moved j rs' ops' = c.moved j rs' (ops ++ ops') := by
  simp [moved]

theorem moved_self : c.moved c.selected c.regions [] = c := by
  simp [moved]

end Moved

theorem updateSelected_eq_ok {f : Descriptor → Descriptor} (hsel : c.selected < c.regionCount)
    (h16 : c.selected.toNat < 16) :
    c.updateSelected f =
      .ok { c with regions := c.regions.set c.selected.toNat (f c.regions[c.selected.toNat]) } := by
  simp [updateSelected, region, setRegion, hsel, h16]

theorem issue_selectRegion {i : UInt8} :
    c.issue (.selectRegion i) = .ok (c.moved i c.regions [.selectRegion i]) := by
  simp [issue, apply, Except.map, record, moved]

theorem issue_setBase {v : UInt32} (hsel : c.selected < c.regionCount)
    (h16 : c.selected.toNat < 16) :
    c.issue (.setBase v) = .ok (c.moved c.selected (c.regions.set c.selected.toNat
      ⟨BaseWord.ofAddress v, c.regions[c.selected.toNat].attributes⟩) [.setBase v]) := by
  simp [issue, apply, updateSelected_eq_ok hsel h16, Except.map, record, moved]

theorem issue_setAttributes {v : UInt32} (hsel : c.selected < c.regionCount)
    (h16 : c.selected.toNat < 16) :
    c.issue (.setAttributes v) = .ok (c.moved c.selected (c.regions.set c.selected.toNat
      ⟨c.regions[c.selected.toNat].base, v⟩) [.setAttributes v]) := by
  simp [issue, apply, updateSelected_eq_ok hsel h16, Except.map, record, moved]

/-! ## Regions -/

theorem issueAll_slot {s : Slot} (hid : s.id < c.regionCount) (h16 : s.id.toNat < 16) :
    c.issueAll s.loadOps =
      .ok (c.moved s.id (c.regions.set s.id.toNat s.descriptor) s.loadOps) := by
  have hbase : (⟨BaseWord.ofAddress s.baseWord, s.attributesWord⟩ : Descriptor) = s.descriptor := by
    rw [Slot.baseWord, BaseWord.ofAddress_ofAddress]
    rfl
  simp only [Slot.loadOps, issueAll, issue_selectRegion]
  rw [issue_setAttributes (by exact hid) (by exact h16)]
  simp only [moved_moved]
  rw [issue_setBase (by exact hid) (by exact h16)]
  simp only [moved_moved]
  rw [issue_setAttributes (by exact hid) (by exact h16)]
  simp [hbase]

theorem issueAll_clear {k : Nat} (hk : k < c.regionCount.toNat) (h16 : k < 16) :
    c.issueAll [.selectRegion (UInt8.ofNat k), .setAttributes 0] =
      .ok (c.moved (UInt8.ofNat k) (c.regions.set k ⟨c.regions[k].base, 0⟩)
        [.selectRegion (UInt8.ofNat k), .setAttributes 0]) := by
  have hnat : (UInt8.ofNat k).toNat = k := UInt8.toNat_ofNat_of_lt' (show k < 256 by omega)
  have hsel : UInt8.ofNat k < c.regionCount := UInt8.lt_iff_toNat_lt.mpr (by omega)
  simp only [issueAll, issue_selectRegion]
  rw [issue_setAttributes (by exact hsel) (by rwa [selected_moved, hnat])]
  simp [hnat]

theorem issueAll_slots (ss : List Slot) : ∀ {c : Core}, c.regionCount.toNat ≤ 16 →
    (∀ s ∈ ss, s.id < c.regionCount) → (ss.map (·.id.toNat)).Nodup →
    ∃ i rs, c.issueAll (ss.flatMap Slot.loadOps) = .ok (c.moved i rs (ss.flatMap Slot.loadOps)) ∧
      (∀ s ∈ ss, ∀ h : s.id.toNat < 16, rs[s.id.toNat] = s.descriptor) ∧
      ∀ k (h : k < 16), k ∉ ss.map (·.id.toNat) → rs[k] = c.regions[k] := by
  induction ss with
  | nil =>
    intro c _ _ _
    refine ⟨c.selected, c.regions, ?_, ?_, fun _ _ _ => rfl⟩
    · rw [List.flatMap_nil, moved_self]
      rfl
    · intro s hs
      cases hs
  | cons s ss ih =>
    intro c hcount hid hnodup
    rw [List.map_cons, List.nodup_cons] at hnodup
    have hs := hid s List.mem_cons_self
    have hs16 : s.id.toNat < 16 := Nat.lt_of_lt_of_le (UInt8.lt_iff_toNat_lt.mp hs) hcount
    obtain ⟨i, rs, hrun, hset, hkept⟩ :=
      ih (c := c.moved s.id (c.regions.set s.id.toNat s.descriptor) s.loadOps) hcount
        (fun s' hs' => hid s' (List.mem_cons_of_mem _ hs')) hnodup.2
    refine ⟨i, rs, ?_, ?_, ?_⟩
    · rw [List.flatMap_cons, issueAll_append, issueAll_slot hs hs16]
      simpa using hrun
    · intro s' hs' h
      rcases List.mem_cons.mp hs' with rfl | hs'
      · -- a later slot has another number
        rw [hkept _ h hnodup.1]
        simp
      · exact hset s' hs' h
    · intro k h hk
      rw [List.map_cons, List.mem_cons, not_or] at hk
      rw [hkept k h hk.2, regions_moved, Vector.getElem_set_ne _ _ (Ne.symm hk.1)]

theorem clearOps_succ (k n : Nat) : clearOps k (k + (n + 1)) =
    [.selectRegion (UInt8.ofNat k), .setAttributes 0] ++ clearOps (k + 1) (k + 1 + n) := by
  simp only [clearOps, Nat.add_sub_cancel_left, List.range'_succ, List.flatMap_cons]

theorem issueAll_clearOps (n : Nat) : ∀ {c : Core} {k : Nat}, c.regionCount.toNat ≤ 16 →
    k + n ≤ c.regionCount.toNat →
    ∃ i rs, c.issueAll (clearOps k (k + n)) = .ok (c.moved i rs (clearOps k (k + n))) ∧
      ∀ j (h : j < 16), rs[j] =
        if k ≤ j ∧ j < k + n then ⟨c.regions[j].base, 0⟩ else c.regions[j] := by
  induction n with
  | zero =>
    intro c k _ _
    refine ⟨c.selected, c.regions, ?_, fun j h => ?_⟩
    · simp [clearOps, moved_self, issueAll]
    · rw [if_neg (by omega)]
  | succ n ih =>
    intro c k hcount hk
    have hk16 : k < 16 := by omega
    obtain ⟨i, rs, hrun, hregs⟩ :=
      ih (c := c.moved (UInt8.ofNat k) (c.regions.set k ⟨c.regions[k].base, 0⟩)
        [.selectRegion (UInt8.ofNat k), .setAttributes 0]) (k := k + 1) hcount
        (by simp only [regionCount_moved]; omega)
    refine ⟨i, rs, ?_, fun j h => ?_⟩
    · rw [clearOps_succ, issueAll_append, issueAll_clear (by omega) hk16]
      simpa using hrun
    · rw [hregs j h, regions_moved, Vector.getElem_set]
      by_cases hj : k = j
      · subst hj
        rw [if_neg (by omega), if_pos rfl, if_pos (by omega)]
      · rw [if_neg hj]
        by_cases hin : k + 1 ≤ j ∧ j < k + 1 + n
        · rw [if_pos hin, if_pos (by omega)]
        · rw [if_neg hin, if_neg (by omega)]

/-! ## A whole table -/

/-- Interrupts go off, then the unit. -/
theorem issueAll_open {v : UInt32} :
    c.issueAll [.mask, .memoryBarrier, .setControl v] =
      .ok { c with
        control := v
        primask := 1
        trace := c.trace ++ #[.mask, .memoryBarrier, .setControl v] } := rfl

/-- The unit goes on, then interrupts as they were. -/
theorem issueAll_close {v primask : UInt32} :
    c.issueAll [.setControl v, .syncBarrier, .fetchBarrier, .restore primask] =
      .ok { c with
        control := v
        primask
        trace := c.trace ++ #[.setControl v, .syncBarrier, .fetchBarrier, .restore primask] } := rfl

/-- `c'` is `c` after the table was loaded: the unit is on, each slot stands in the registers of its
place, the other regions are off, and nothing but the selector and the trace differs. -/
structure Loaded (c : Core) (t : RegionTable) (c' : Core) : Prop where
  wellFormed : t.WellFormed
  fits : t.length ≤ c.regionCount.toNat
  regionCount_le : c.regionCount.toNat ≤ 16
  regionCount_eq : c'.regionCount = c.regionCount
  control_eq : c'.control = ControlWord.running
  primask_eq : c'.primask = c.primask
  memory_eq : c'.memory = c.memory
  faults_eq : c'.faults = c.faults
  unmaskedStores_eq : c'.unmaskedStores = c.unmaskedStores
  trace_eq : c'.trace = c.trace ++ (t.loadOps c.regionCount c.primask).toArray
  slot : ∀ k (h : k < t.slots.length) (h16 : k < 16), c'.regions[k] = t.slots[k].descriptor
  leftover : ∀ k (h16 : k < 16), t.length ≤ k → k < c.regionCount.toNat →
    c'.regions[k] = ⟨c.regions[k].base, 0⟩
  beyond : ∀ k (h16 : k < 16), c.regionCount.toNat ≤ k → c'.regions[k] = c.regions[k]

end Core

namespace RegionTable.WellFormed

variable {t : RegionTable}

theorem id_getElem (h : t.WellFormed) {k : Nat} (hk : k < t.slots.length) :
    t.slots[k].id.toNat = k := by
  have hget : (t.slots.map (·.id.toNat))[k]? = some t.slots[k].id.toNat := by
    rw [List.getElem?_map, List.getElem?_eq_getElem hk]
    rfl
  rw [h.numbered, List.getElem?_range (by simpa using hk)] at hget
  exact (Option.some.inj hget).symm

theorem id_lt_iff (h : t.WellFormed) {n : Nat} :
    (∀ s ∈ t.slots, s.id.toNat < n) ↔ t.length ≤ n := by
  have hids : (∀ s ∈ t.slots, s.id.toNat < n) ↔ ∀ k ∈ t.slots.map (·.id.toNat), k < n := by
    rw [List.forall_mem_map]
  rw [hids, h.numbered]
  simp only [List.mem_range]
  exact ⟨fun hlt => Nat.not_lt.mp fun hn => Nat.lt_irrefl n (hlt n hn),
    fun hle k hk => Nat.lt_of_lt_of_le hk hle⟩

theorem id_lt (h : t.WellFormed) {count : UInt8} (hfit : t.length ≤ count.toNat) :
    ∀ s ∈ t.slots, s.id < count :=
  fun s hs => UInt8.lt_iff_toNat_lt.mpr (h.id_lt_iff.mpr hfit s hs)

end RegionTable.WellFormed

namespace Core

variable {c : Core}

/-- A table is refused for one of two reasons, and the refusal touches nothing. -/
theorem load_eq_error_iff {c c' : Core} {t : RegionTable} {e : LoadError} :
    c.load t = .ok (c', .error e) ↔ c' = c ∧
      (c.regionCount = 0 ∧ e = .notPresent ∨
        c.regionCount ≠ 0 ∧ c.regionCount.toNat < t.length ∧
          e = .tooManyRegions t.length c.regionCount) := by
  by_cases h0 : c.regionCount = 0
  · simp [load, h0, eq_comm]
  · by_cases hfit : c.regionCount.toNat < t.length
    · simp [load, h0, hfit, eq_comm]
    · rw [load, if_neg h0, if_neg hfit]
      cases c.issueAll (t.loadOps c.regionCount c.primask) <;> simp [Except.map, h0, hfit]

theorem load_refused {t : RegionTable} (h : c.regionCount.toNat < t.length) :
    ∃ e, c.load t = .ok (c, .error e) := by
  by_cases h0 : c.regionCount = 0
  · exact ⟨_, load_eq_error_iff.mpr ⟨rfl, .inl ⟨h0, rfl⟩⟩⟩
  · exact ⟨_, load_eq_error_iff.mpr ⟨rfl, .inr ⟨h0, h, rfl⟩⟩⟩

theorem load_of_fits {t : RegionTable} (hfit : t.length ≤ c.regionCount.toNat) :
    c.load t = (c.issueAll (t.loadOps c.regionCount c.primask)).map fun c' => (c', .ok ()) := by
  have hpos : c.regionCount ≠ 0 := by
    intro h0
    rw [h0, RegionTable.length] at hfit
    exact absurd hfit (by simp)
  rw [load, if_neg hpos, if_neg (Nat.not_lt.mpr hfit)]

/-- **A load follows the table.** From any core with room for the table. -/
theorem load_eq_ok {t : RegionTable} (ht : t.WellFormed) (hfit : t.length ≤ c.regionCount.toNat)
    (h16 : c.regionCount.toNat ≤ 16) : ∃ c', c.load t = .ok (c', .ok ()) ∧ c.Loaded t c' := by
  have hlen : t.slots.length = t.length := t.length_slots
  have hnodup : (t.slots.map (·.id.toNat)).Nodup := ht.numbered ▸ List.nodup_range
  -- with the unit off: the slots, then the leftover regions
  obtain ⟨i₁, rs₁, hslots, hset, hkept⟩ := issueAll_slots t.slots (c := { c with
    control := ControlWord.disabled
    primask := 1
    trace := c.trace ++ #[.mask, .memoryBarrier, .setControl ControlWord.disabled] })
    h16 (ht.id_lt hfit) hnodup
  obtain ⟨i₂, rs₂, hclear, hregs⟩ := issueAll_clearOps (c.regionCount.toNat - t.length)
    (c := moved { c with
      control := ControlWord.disabled
      primask := 1
      trace := c.trace ++ #[.mask, .memoryBarrier, .setControl ControlWord.disabled] }
      i₁ rs₁ (t.slots.flatMap Slot.loadOps)) (k := t.length) h16 (by
        simp only [regionCount_moved]
        omega)
  rw [Nat.add_sub_cancel' hfit] at hclear hregs
  have hrun : c.issueAll (t.loadOps c.regionCount c.primask) =
      .ok { c.moved i₂ rs₂ (t.loadOps c.regionCount c.primask) with
        control := ControlWord.running } := by
    rw [RegionTable.loadOps]
    simp only [issueAll_append, issueAll_open, hslots, hclear, issueAll_close]
    simp [moved]
  refine ⟨{ c.moved i₂ rs₂ (t.loadOps c.regionCount c.primask) with
    control := ControlWord.running }, ?_,
    ⟨ht, hfit, h16, rfl, rfl, rfl, rfl, rfl, rfl, rfl, ?_, ?_, ?_⟩⟩
  · rw [load_of_fits hfit, hrun]
    rfl
  · intro k hk hk16
    have hid := ht.id_getElem hk
    have hslot := hset t.slots[k] (List.getElem_mem hk) (by omega)
    simp only [hid] at hslot
    show rs₂[k] = _
    rw [hregs k hk16, if_neg (by omega)]
    exact hslot
  · intro k hk16 hle hlt
    have hk : k ∉ t.slots.map (·.id.toNat) := by
      rw [ht.numbered, List.mem_range]
      omega
    show rs₂[k] = _
    rw [hregs k hk16, if_pos ⟨hle, hlt⟩, regions_moved, hkept k hk16 hk]
  · intro k hk16 hle
    have hk : k ∉ t.slots.map (·.id.toNat) := by
      rw [ht.numbered, List.mem_range]
      omega
    show rs₂[k] = _
    rw [hregs k hk16, if_neg (by omega), regions_moved, hkept k hk16 hk]

/-- A load that answers with success loads. -/
theorem loaded_of_load {c' : Core} {t : RegionTable} (ht : t.WellFormed)
    (h16 : c.regionCount.toNat ≤ 16) (h : c.load t = .ok (c', .ok ())) : c.Loaded t c' := by
  by_cases hfit : t.length ≤ c.regionCount.toNat
  · obtain ⟨c₁, hload, hloaded⟩ := load_eq_ok ht hfit h16
    rw [h] at hload
    cases hload
    exact hloaded
  · obtain ⟨e, hload⟩ := load_refused (Nat.not_le.mp hfit)
    rw [h] at hload
    cases hload

/-- Each slot stands in the registers of its number. -/
theorem Loaded.region_eq {c' : Core} {t : RegionTable} (h : c.Loaded t c') :
    ∀ s ∈ t.slots, c'.region s.id.toNat = .ok s.descriptor := by
  intro s hs
  obtain ⟨k, hk, rfl⟩ := List.mem_iff_getElem.mp hs
  have hlen : k < t.length := t.length_slots ▸ hk
  have h16 : k < 16 := Nat.lt_of_lt_of_le hlen h.wellFormed.length_le
  rw [h.wellFormed.id_getElem hk, region, dif_pos h16, h.slot k hk h16]

end Core
end CodeGuard
