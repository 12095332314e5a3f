import CodeGuard.Proofs.Stepwise

/-!
# CodeGuard.Proofs.Registers

What the region registers hold after any run of operations.

* `BusOp.lastWritten`: the last value that operations wrote to a register of one region, told by the
  selections between them.
* `Core.issue_registerStep`: what one operation does to the registers.
* `Core.Files`: the registers hold what was last written to them. `Files.step` and `Files.issueAll`:
  operations keep it.
-/

namespace CodeGuard

/-! ## Registers told by the operations -/

namespace BusOp

/-- The operation does not store. -/
def SparesMemory : BusOp → Prop
  | .store _ _ => False
  | _ => True

/-- The value that goes to the base register of the selected region. -/
def base? : BusOp → Option UInt32
  | .setBase value => some value
  | _ => none

/-- The value that goes to the attributes register of the selected region. -/
def attributes? : BusOp → Option UInt32
  | .setAttributes value => some value
  | _ => none

/-- The region that is selected after some operations, and `initial` before any selection. -/
def selectedAfter (initial : UInt8) (ops : List BusOp) : UInt8 :=
  (ops.filterMap selection?).getLast?.getD initial

/-- The values that were written to one register of region `i`, that is, while it was selected. -/
def written (field : BusOp → Option UInt32) (i : Nat) :
    (selected : UInt8) → List BusOp → List UInt32
  | _, [] => []
  | selected, op :: rest =>
    (if selected.toNat = i then (field op).toList else []) ++
      written field i (op.selection?.getD selected) rest

/-- The last value written to a register of region `i`, and 0 if there is none. Region 0 is selected
at first. -/
def lastWritten (field : BusOp → Option UInt32) (i : Nat) (ops : List BusOp) : UInt32 :=
  (written field i 0 ops).getLast?.getD 0

variable {op : BusOp} {ops : List BusOp} {field : BusOp → Option UInt32} {i : Nat} {s : UInt8}

theorem OnRegions.sparesMemory (h : op.OnRegions) : op.SparesMemory := by
  cases op with
  | store => exact h.elim
  | _ => trivial

theorem selectedAfter_cons :
    selectedAfter s (op :: ops) = selectedAfter (op.selection?.getD s) ops := by
  rw [selectedAfter, selectedAfter, List.filterMap_cons]
  cases op.selection? with
  | none => rfl
  | some r => simp [List.getLast?_cons]

theorem selectedAfter_concat :
    selectedAfter s (ops ++ [op]) = op.selection?.getD (selectedAfter s ops) := by
  rw [selectedAfter, selectedAfter, List.filterMap_append, List.filterMap_cons, List.filterMap_nil]
  cases op.selection? with
  | none => simp
  | some r => simp

theorem written_concat :
    written field i s (ops ++ [op]) = written field i s ops ++
      if (selectedAfter s ops).toNat = i then (field op).toList else [] := by
  induction ops generalizing s with
  | nil =>
    rw [List.nil_append, written, written, written, List.append_nil, List.nil_append]
    rfl
  | cons first rest ih =>
    rw [List.cons_append, written, written, ih, selectedAfter_cons, List.append_assoc]

theorem lastWritten_nil : lastWritten field i [] = 0 := rfl

theorem lastWritten_concat :
    lastWritten field i (ops ++ [op]) =
      if (selectedAfter 0 ops).toNat = i then (field op).getD (lastWritten field i ops)
      else lastWritten field i ops := by
  rw [lastWritten, written_concat]
  split
  · cases field op with
    | none => simp [lastWritten]
    | some v => simp
  · simp [lastWritten]

/-- The registers of the selected region after the operation. -/
def rewrite (op : BusOp) (d : Descriptor) : Descriptor :=
  ⟨(op.base?.map BaseWord.ofAddress).getD d.base, op.attributes?.getD d.attributes⟩

end BusOp

namespace Core

open BusOp

variable {c c' : Core} {op : BusOp} {ops : List BusOp} {n : UInt8} {m : Nat}

/-! ## One operation -/

/-- The operation moves the selector and changes the registers of the selected region, if the unit
claims to have it. -/
structure RegisterStep (c : Core) (op : BusOp) (c' : Core) : Prop where
  regionCount_eq : c'.regionCount = c.regionCount
  memory_eq : c'.memory = c.memory
  selected_eq : c'.selected = op.selection?.getD c.selected
  region_eq : ∀ i (h : i < 16), c'.regions[i] =
    if c.selected.toNat = i ∧ i < c.regionCount.toNat then op.rewrite c.regions[i] else c.regions[i]

theorem updateSelected_registerStep (op : BusOp) (h16 : c.regionCount.toNat ≤ 16)
    (hsel : op.selection? = none) :
    ∃ c', c.updateSelected op.rewrite = .ok c' ∧ c.RegisterStep op c' := by
  by_cases hlt : c.selected < c.regionCount
  · have hlt' := UInt8.lt_iff_toNat_lt.mp hlt
    refine ⟨_, updateSelected_eq_ok hlt (Nat.lt_of_lt_of_le hlt' h16), rfl, rfl, ?_, fun i h => ?_⟩
    · rw [hsel]
      rfl
    · rw [Vector.getElem_set]
      by_cases hi : c.selected.toNat = i
      · subst hi
        rw [if_pos rfl, if_pos ⟨rfl, hlt'⟩]
      · rw [if_neg hi, if_neg fun h => hi h.1]
  · have hle := Nat.not_lt.mp fun hlt' => hlt (UInt8.lt_iff_toNat_lt.mpr hlt')
    refine ⟨c, by rw [updateSelected, if_neg hlt], rfl, rfl, by rw [hsel]; rfl, fun i h => ?_⟩
    rw [if_neg (by omega)]

theorem apply_registerStep (h16 : c.regionCount.toNat ≤ 16) (hop : op.SparesMemory) :
    ∃ c', c.apply op = .ok c' ∧ c.RegisterStep op c' := by
  cases op with
  | store => exact hop.elim
  | setBase value => exact updateSelected_registerStep (.setBase value) h16 rfl
  | setAttributes value => exact updateSelected_registerStep (.setAttributes value) h16 rfl
  | _ => exact ⟨_, rfl, rfl, rfl, rfl, fun i h => (ite_self _).symm⟩

theorem issue_registerStep (h16 : c.regionCount.toNat ≤ 16) (hop : op.SparesMemory) :
    ∃ c', c.issue op = .ok c' ∧ c.RegisterStep op c' := by
  obtain ⟨c', happly, hstep⟩ := apply_registerStep h16 hop
  exact ⟨c'.record op, by rw [issue, happly]; rfl, hstep.1, hstep.2, hstep.3, hstep.4⟩

/-- With a region selected that the unit does not claim to have, no register changes. -/
theorem RegisterStep.regions_eq (h : c.RegisterStep op c') (hsel : c.regionCount ≤ c.selected) :
    c'.regions = c.regions := by
  have hle := UInt8.le_iff_toNat_le.mp hsel
  refine Vector.ext fun i hi => ?_
  rw [h.region_eq i hi, if_neg (by omega)]

/-! ## The registers after operations -/

/-- The registers of a unit of `n` regions after some operations. -/
structure Files (n : UInt8) (m : Nat) (ops : List BusOp) (c : Core) : Prop where
  regionCount_eq : c.regionCount = n
  size_eq : c.memory.size = m
  selected_eq : c.selected = selectedAfter 0 ops
  region_eq : ∀ i (h : i < 16), c.regions[i] =
    if i < n.toNat then
      ⟨BaseWord.ofAddress (lastWritten base? i ops), lastWritten attributes? i ops⟩
    else .zero

namespace Files

theorem reset (n : UInt8) (m : Nat) : (Core.reset n m).Files n m [] where
  regionCount_eq := rfl
  size_eq := Array.size_replicate
  selected_eq := rfl
  region_eq := fun i hi => by
    have hzero : BaseWord.ofAddress 0 = 0 := by decide
    rw [lastWritten_nil, lastWritten_nil, hzero]
    exact (Vector.getElem_replicate hi).trans (ite_self _).symm

theorem regionCount_le (h : Files n m ops c) (h16 : n.toNat ≤ 16) : c.regionCount.toNat ≤ 16 := by
  rwa [h.regionCount_eq]

/-- Whatever else differs. -/
theorem congr (h : Files n m ops c) (hcount : c'.regionCount = c.regionCount)
    (hsize : c'.memory.size = c.memory.size) (hsel : c'.selected = c.selected)
    (hregions : c'.regions = c.regions) : Files n m ops c' where
  regionCount_eq := hcount.trans h.regionCount_eq
  size_eq := hsize.trans h.size_eq
  selected_eq := hsel.trans h.selected_eq
  region_eq := fun i hi => by simp only [hregions, h.region_eq i hi]

theorem step (h : Files n m ops c) (hstep : c.RegisterStep op c') : Files n m (ops ++ [op]) c' where
  regionCount_eq := hstep.regionCount_eq.trans h.regionCount_eq
  size_eq := (congrArg Array.size hstep.memory_eq).trans h.size_eq
  selected_eq := by rw [hstep.selected_eq, h.selected_eq, selectedAfter_concat]
  region_eq := by
    intro i hi
    rw [hstep.region_eq i hi, h.region_eq i hi, h.regionCount_eq, h.selected_eq, lastWritten_concat,
      lastWritten_concat]
    by_cases hn : i < n.toNat
    · by_cases hsel : (selectedAfter 0 ops).toNat = i
      · simp only [hn, hsel, and_self, if_true, rewrite]
        cases op.base? <;> rfl
      · simp only [hn, hsel, false_and, if_true, if_false]
    · simp only [hn, and_false, if_false]

theorem issueAll (h16 : n.toNat ≤ 16) (more : List BusOp) : ∀ {c : Core} {ops : List BusOp},
    Files n m ops c → (∀ op ∈ more, op.SparesMemory) →
    ∃ c', c.issueAll more = .ok c' ∧ Files n m (ops ++ more) c' ∧ c'.memory = c.memory := by
  induction more with
  | nil =>
    intro c ops h _
    exact ⟨c, rfl, by rwa [List.append_nil], rfl⟩
  | cons op rest ih =>
    intro c ops h hspares
    obtain ⟨hop, hrest⟩ := List.forall_mem_cons.mp hspares
    obtain ⟨c₁, hissue, hstep⟩ := issue_registerStep (h.regionCount_le h16) hop
    obtain ⟨c', hall, hfiles, hmemory⟩ := ih (h.step hstep) hrest
    refine ⟨c', by rw [Core.issueAll, hissue]; exact hall, ?_, hmemory.trans hstep.memory_eq⟩
    rwa [List.append_assoc] at hfiles

end Files
end Core
end CodeGuard
