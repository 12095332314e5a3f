import CodeGuard.Proofs.Patching

/-!
# CodeGuard.Proofs.Stepwise

A load, operation by operation.

* `Core.Careful`: a stretch of operations that touches region registers only with interrupts masked
  and the unit off, and moves a region only while it is off itself.
* `Core.careful_flatMap`: a run over the regions is careful if it is at each of them. A load makes two
  such runs, over the slots and over the leftover regions.
* `RegionTable.selections_regionOps`: the runs together select each region once, in order.
* `Core.load_stepwise`: what a load refuses, and how it goes where it is not refused.
-/

namespace CodeGuard

/-! ## Careful operations -/

namespace BusOp

/-- The operation selects or writes a region. -/
def OnRegions : BusOp → Prop
  | .selectRegion _ | .setBase _ | .setAttributes _ => True
  | _ => False

def selection? : BusOp → Option UInt8
  | .selectRegion region => some region
  | _ => none

end BusOp

namespace Core

/-- Interrupts are masked and the unit is off. -/
structure Sheltered (c : Core) : Prop where
  enabled_eq : c.enabled = false
  interruptsMasked_eq : c.interruptsMasked = true

/-- Region registers change under shelter. A base changes only while its region is off. -/
def Permits (c : Core) : BusOp → Prop
  | .setBase _ => c.Sheltered ∧ c.selected < c.regionCount ∧
      ∃ d, c.region c.selected.toNat = .ok d ∧ d.enabled = false
  | .setAttributes _ => c.Sheltered
  | _ => True

/-- The operations lead from the one core to the other. Each core on the way permits the operation
that comes next. -/
inductive Careful : Core → List BusOp → Core → Prop where
  | nil {c : Core} : Careful c [] c
  | cons {c c₁ c' : Core} {op : BusOp} {ops : List BusOp} : c.Permits op → c.issue op = .ok c₁ →
      Careful c₁ ops c' → Careful c (op :: ops) c'

variable {c c₁ c' : Core} {ops ops' : List BusOp}

namespace Careful

theorem append (h : Careful c ops c₁) (h' : Careful c₁ ops' c') : Careful c (ops ++ ops') c' := by
  induction h with
  | nil => exact h'
  | cons hpermits hissue _ ih => exact .cons hpermits hissue (ih h')

theorem issueAll (h : Careful c ops c') : c.issueAll ops = .ok c' := by
  induction h with
  | nil => rfl
  | cons _ hissue _ ih => simp only [Core.issueAll, hissue, ih]

/-- The operations lead where they lead when they are issued. -/
theorem of_issueAll (h : ∃ c₁, Careful c ops c₁) (hrun : c.issueAll ops = .ok c') :
    Careful c ops c' := by
  obtain ⟨c₁, hcareful⟩ := h
  have heq := hcareful.issueAll
  rw [hrun] at heq
  cases heq
  exact hcareful

end Careful

/-! ## Regions -/

theorem sheltered_opened : c.opened.Sheltered :=
  ⟨rfl, interruptsMasked_opened⟩

theorem Sheltered.moved (h : c.Sheltered) (i : UInt8) (rs : Vector Descriptor 16) (ops : List BusOp) :
    (c.moved i rs ops).Sheltered :=
  ⟨h.enabled_eq, h.interruptsMasked_eq⟩

/-- A region is off after its attributes were written without the enable bit. -/
theorem enabled_clear (base w : UInt32) :
    (⟨base, AttributesWord.enable.clear w⟩ : Descriptor).enabled = false := by
  rw [Descriptor.enabled, BitField.isSet, BitField.read_clear (by decide)]
  rfl

theorem permits_setBase (h : c.Sheltered) {i : UInt8} {rs : Vector Descriptor 16}
    {base w v : UInt32} {ops : List BusOp} (hid : i < c.regionCount) (h16 : i.toNat < 16) :
    (c.moved i (rs.set i.toNat ⟨base, AttributesWord.enable.clear w⟩) ops).Permits (.setBase v) := by
  refine ⟨h.moved _ _ _, hid, ⟨base, AttributesWord.enable.clear w⟩, ?_, enabled_clear base w⟩
  simp [region, h16]

/-- The region is off from the first write of its attributes to the last. -/
theorem careful_slot (h : c.Sheltered) {s : Slot} (hid : s.id < c.regionCount)
    (h16 : s.id.toNat < 16) :
    Careful c s.loadOps (c.moved s.id (c.regions.set s.id.toNat s.descriptor) s.loadOps) := by
  have hcareful : ∃ c', Careful c s.loadOps c' :=
    ⟨_, .cons trivial issue_selectRegion
      (.cons (h.moved _ _ _) (issue_setAttributes hid h16)
      (.cons (permits_setBase (h.moved _ _ _) hid h16) (issue_setBase hid h16)
      (.cons (((h.moved _ _ _).moved _ _ _).moved _ _ _) (issue_setAttributes hid h16) .nil)))⟩
  exact .of_issueAll hcareful (issueAll_slot hid h16)

theorem careful_clear (h : c.Sheltered) {k : Nat} (hk : k < c.regionCount.toNat) (h16 : k < 16) :
    Careful c [.selectRegion (UInt8.ofNat k), .setAttributes 0]
      (c.moved (UInt8.ofNat k) (c.regions.set k ⟨c.regions[k].base, 0⟩)
        [.selectRegion (UInt8.ofNat k), .setAttributes 0]) := by
  have hnat : (UInt8.ofNat k).toNat = k := UInt8.toNat_ofNat_of_lt' (show k < 256 by omega)
  have hsel : UInt8.ofNat k < c.regionCount := UInt8.lt_iff_toNat_lt.mpr (by omega)
  have hcareful : ∃ c', Careful c [.selectRegion (UInt8.ofNat k), .setAttributes 0] c' :=
    ⟨_, .cons trivial issue_selectRegion
      (.cons (h.moved _ _ _) (issue_setAttributes hsel (by rwa [selected_moved, hnat])) .nil)⟩
  exact .of_issueAll hcareful (issueAll_clear hk h16)

/-- Stretches that are careful under shelter, and stay there, are careful one after the other. -/
theorem careful_flatMap {α : Type} {f : α → List BusOp} {count : UInt8} (xs : List α) :
    (∀ x ∈ xs, ∀ c : Core, c.Sheltered → c.regionCount = count →
      ∃ i rs, Careful c (f x) (c.moved i rs (f x))) →
    ∀ c : Core, c.Sheltered → c.regionCount = count →
      ∃ i rs, Careful c (xs.flatMap f) (c.moved i rs (xs.flatMap f)) := by
  induction xs with
  | nil =>
    intro _ c _ _
    refine ⟨c.selected, c.regions, ?_⟩
    rw [List.flatMap_nil, moved_self]
    exact .nil
  | cons x xs ih =>
    intro hstretch c h hcount
    obtain ⟨hx, hxs⟩ := List.forall_mem_cons.mp hstretch
    obtain ⟨i, rs, hfirst⟩ := hx c h hcount
    obtain ⟨j, rs', hrest⟩ := ih hxs (c.moved i rs (f x)) (h.moved i rs (f x)) hcount
    rw [moved_moved] at hrest
    exact ⟨j, rs', by rw [List.flatMap_cons]; exact hfirst.append hrest⟩

theorem careful_slots (h : c.Sheltered) {ss : List Slot} (hid : ∀ s ∈ ss, s.id < c.regionCount)
    (h16 : c.regionCount.toNat ≤ 16) :
    ∃ i rs, Careful c (ss.flatMap Slot.loadOps) (c.moved i rs (ss.flatMap Slot.loadOps)) := by
  refine careful_flatMap ss (fun s hs d hd hcount => ?_) c h rfl
  have hs16 := Nat.lt_of_lt_of_le (UInt8.lt_iff_toNat_lt.mp (hid s hs)) h16
  exact ⟨_, _, careful_slot hd (hcount ▸ hid s hs) hs16⟩

theorem careful_clearOps (h : c.Sheltered) (k : Nat) (h16 : c.regionCount.toNat ≤ 16) :
    ∃ i rs, Careful c (clearOps k c.regionCount.toNat)
      (c.moved i rs (clearOps k c.regionCount.toNat)) := by
  refine careful_flatMap (List.range' k (c.regionCount.toNat - k)) (fun id hid d hd hcount => ?_) c h
    rfl
  rw [List.mem_range'_1] at hid
  exact ⟨_, _, careful_clear hd (by rw [hcount]; omega) (by omega)⟩

/-! ## A whole load -/

theorem careful_opened : Careful c [.mask, .memoryBarrier, .setControl ControlWord.disabled] c.opened :=
  .cons trivial rfl (.cons trivial rfl (.cons trivial rfl .nil))

theorem careful_closed (control primask : UInt32) :
    Careful c [.setControl control, .syncBarrier, .fetchBarrier, .restore primask]
      (c.closed control primask) :=
  .cons trivial rfl (.cons trivial rfl (.cons trivial rfl (.cons trivial rfl .nil)))

theorem careful_loadOps {t : RegionTable} (ht : t.WellFormed)
    (hfit : t.length ≤ c.regionCount.toNat) (h16 : c.regionCount.toNat ≤ 16) :
    ∃ c', Careful c (t.loadOps c.regionCount c.primask) c' := by
  obtain ⟨i, rs, hslots⟩ := careful_slots sheltered_opened (ht.id_lt hfit) h16
  obtain ⟨j, rs', hclear⟩ := careful_clearOps
    (sheltered_opened.moved i rs (t.slots.flatMap Slot.loadOps)) t.length h16
  exact ⟨_, ((careful_opened.append hslots).append hclear).append (careful_closed _ _)⟩

end Core

/-! ## The order of the regions -/

namespace RegionTable

variable {t : RegionTable}

/-- The operations of a load on the regions: the slots, then the leftover regions. -/
def regionOps (t : RegionTable) (available : UInt8) : List BusOp :=
  t.slots.flatMap Slot.loadOps ++ clearOps t.length available.toNat

theorem loadOps_eq (t : RegionTable) (available : UInt8) (primask : UInt32) :
    t.loadOps available primask = [.mask, .memoryBarrier, .setControl 0] ++ t.regionOps available ++
      [.setControl 7, .syncBarrier, .fetchBarrier, .restore primask] := by
  rw [loadOps, regionOps, List.append_assoc [_, _, _]]
  rfl

theorem onRegions_regionOps (t : RegionTable) (available : UInt8) :
    ∀ op ∈ t.regionOps available, op.OnRegions := by
  intro op hop
  simp only [regionOps, clearOps, Slot.loadOps, List.mem_append, List.mem_flatMap, List.mem_cons,
    List.not_mem_nil, or_false] at hop
  rcases hop with ⟨s, -, rfl | rfl | rfl | rfl⟩ | ⟨k, -, rfl | rfl⟩ <;> trivial

/-- Each region that the unit claims to have is selected once, in ascending order. -/
theorem selections_regionOps (ht : t.WellFormed) {available : UInt8}
    (hfit : t.length ≤ available.toNat) :
    (t.regionOps available).filterMap BusOp.selection? =
      (List.range available.toNat).map UInt8.ofNat := by
  have hslots : (t.slots.flatMap Slot.loadOps).filterMap BusOp.selection? =
      (List.range t.length).map UInt8.ofNat := by
    rw [← ht.numbered, List.map_map, List.filterMap_flatMap, List.map_eq_flatMap]
    exact List.flatMap_congr fun s _ => congrArg (fun id => [id]) UInt8.ofNat_toNat.symm
  have hclear : (clearOps t.length available.toNat).filterMap BusOp.selection? =
      (List.range' t.length (available.toNat - t.length)).map UInt8.ofNat := by
    rw [clearOps, List.filterMap_flatMap, List.map_eq_flatMap]
    rfl
  have hrange := List.range'_append_1 (s := 0) (m := t.length) (n := available.toNat - t.length)
  rw [Nat.zero_add, Nat.add_sub_cancel' hfit] at hrange
  rw [regionOps, List.filterMap_append, hslots, hclear, ← List.map_append, List.range_eq_range',
    List.range_eq_range', hrange]

end RegionTable

namespace Core

variable {c : Core} {t : RegionTable}

/-- **A load changes nothing or all, and is safe at every step.** It is refused if the unit has no
regions, or not enough of them, and then touches nothing. Else it goes through each region that the
unit claims to have, once and in ascending order, between the operations that switch interrupts and
unit off and those that switch them on again. Replayed one by one, from whatever the registers held,
no operation writes a region register but with interrupts masked and the unit off, and none moves a
region that is on. -/
theorem load_stepwise (ht : t.Accepted) (h16 : c.regionCount.toNat ≤ 16) :
    (∀ c' e, c.load t = .ok (c', .error e) ↔ c' = c ∧
      (c.regionCount = 0 ∧ e = .notPresent ∨ c.regionCount ≠ 0 ∧ c.regionCount.toNat < t.length ∧
        e = .tooManyRegions t.length c.regionCount)) ∧
    (t.length ≤ c.regionCount.toNat → ∃ c' ops regionOps, c.load t = .ok (c', .ok ()) ∧
      c'.trace = c.trace ++ ops.toArray ∧ Careful c ops c' ∧
      ops = [.mask, .memoryBarrier, .setControl 0] ++ regionOps ++
        [.setControl 7, .syncBarrier, .fetchBarrier, .restore c.primask] ∧
      (∀ op ∈ regionOps, op.OnRegions) ∧
      regionOps.filterMap BusOp.selection? = (List.range c.regionCount.toNat).map UInt8.ofNat ∧
      c.Loaded t c' ∧ c'.control = 7) := by
  refine ⟨fun _ _ => load_eq_error_iff, fun hfit => ?_⟩
  have hwf := ht.wellFormed
  obtain ⟨c', hload, hloaded⟩ := load_eq_ok hwf hfit h16
  obtain ⟨c₁, hcareful⟩ := careful_loadOps hwf hfit h16
  have hsame := load_of_fits hfit
  rw [hload, hcareful.issueAll] at hsame
  cases hsame
  exact ⟨c', _, t.regionOps c.regionCount, hload, hloaded.trace_eq, hcareful, t.loadOps_eq _ _,
    t.onRegions_regionOps _, RegionTable.selections_regionOps hwf hfit, hloaded,
    hloaded.control_eq⟩

/-- A table of two regions on a running unit of four, all of them left on by an earlier program, with
the mask at 2. -/
theorem load_stepwise_running :
    ∃ t, RegionTable.unprotected 0x24000 .reference = .ok t ∧ ∃ c' ops regionOps,
      load { reset 4 64 with
        control := 5, primask := 2, regions := .replicate 16 ⟨0, 0x3F⟩ } t = .ok (c', .ok ()) ∧
      Careful { reset 4 64 with
        control := 5, primask := 2, regions := .replicate 16 ⟨0, 0x3F⟩ } ops c' ∧
      ops = [.mask, .memoryBarrier, .setControl 0] ++ regionOps ++
        [.setControl 7, .syncBarrier, .fetchBarrier, .restore 2] ∧
      regionOps.filterMap BusOp.selection? = [0, 1, 2, 3] := by
  have htable : RegionTable.unprotected 0x24000 .reference = .ok _ := rfl
  obtain ⟨-, hfits⟩ := load_stepwise (.unprotected htable) (c := { reset 4 64 with
    control := 5, primask := 2, regions := .replicate 16 ⟨0, 0x3F⟩ }) (by decide)
  obtain ⟨c', ops, regionOps, hload, -, hcareful, hops, -, hselect, -⟩ := hfits (by decide)
  exact ⟨_, rfl, c', ops, regionOps, hload, hcareful, hops, hselect⟩

end Core
end CodeGuard
