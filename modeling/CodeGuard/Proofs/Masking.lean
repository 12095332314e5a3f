import CodeGuard.Proofs.Matching
import CodeGuard.Proofs.ReadBack

/-!
# CodeGuard.Proofs.Masking

The interrupt mask is left as it was found.

* `Core.KeepsMask`: what every part of the program keeps, with any outcome: the mask, and, while it
  keeps interrupts out, the count of stores made with interrupts open.
* `Core.issueAll_spares`: operations that are not about the mask keep it.
* `Core.KeepsMask.window`: so does a stretch of them between masking and restoring.
* `Core.load_keepsMask`, `Writer.write_keepsMask`, `Protection.establish_keepsMask`: loads, writes
  and boots, accepted or not.
-/

namespace CodeGuard

/-- Any operation but the two on the interrupt mask. -/
def BusOp.SparesMask : BusOp → Prop
  | .mask | .restore _ => False
  | _ => True

namespace Core

structure KeepsMask (c c' : Core) : Prop where
  regionCount_eq : c'.regionCount = c.regionCount
  primask_eq : c'.primask = c.primask
  unmaskedStores_eq : c.interruptsMasked = true → c'.unmaskedStores = c.unmaskedStores

/-- `c` with interrupts masked. -/
def masked (c : Core) : Core :=
  { c with primask := 1, trace := c.trace.push .mask }

/-- `c` with the interrupt mask set back. -/
def restored (c : Core) (primask : UInt32) : Core :=
  { c with primask, trace := c.trace.push (.restore primask) }

variable {c c₁ c' : Core}

@[simp] theorem interruptsMasked_masked : c.masked.interruptsMasked = true := by
  simp [interruptsMasked, masked, masksInterrupts]

theorem issueAll_mask (ops : List BusOp) : c.issueAll (.mask :: ops) = c.masked.issueAll ops := rfl

theorem issueAll_restore {ops : List BusOp} (h : c.issueAll ops = .ok c') (primask : UInt32) :
    c.issueAll (ops ++ [.restore primask]) = .ok (c'.restored primask) := by
  rw [issueAll_append, h]
  rfl

namespace KeepsMask

theorem refl (c : Core) : c.KeepsMask c := ⟨rfl, rfl, fun _ => rfl⟩

theorem interruptsMasked_eq (h : c.KeepsMask c') : c'.interruptsMasked = c.interruptsMasked :=
  congrArg masksInterrupts h.primask_eq

theorem trans (h : c.KeepsMask c₁) (h' : c₁.KeepsMask c') : c.KeepsMask c' where
  regionCount_eq := h'.regionCount_eq.trans h.regionCount_eq
  primask_eq := h'.primask_eq.trans h.primask_eq
  unmaskedStores_eq := fun hmask =>
    (h'.unmaskedStores_eq (h.interruptsMasked_eq.trans hmask)).trans (h.unmaskedStores_eq hmask)

theorem regionCount_le (h : c.KeepsMask c') (h16 : c.regionCount.toNat ≤ 16) :
    c'.regionCount.toNat ≤ 16 := by
  rwa [h.regionCount_eq]

/-- Between masking and restoring, no store is counted. -/
theorem window (h : c.masked.KeepsMask c') : c.KeepsMask (c'.restored c.primask) where
  regionCount_eq := h.regionCount_eq
  primask_eq := rfl
  unmaskedStores_eq := fun _ => h.unmaskedStores_eq interruptsMasked_masked

end KeepsMask

/-! ## Operations -/

theorem updateSelected_keepsMask (h16 : c.regionCount.toNat ≤ 16) (f : Descriptor → Descriptor) :
    ∃ c', c.updateSelected f = .ok c' ∧ c.KeepsMask c' := by
  by_cases hsel : c.selected < c.regionCount
  · have hlt : c.selected.toNat < 16 := Nat.lt_of_lt_of_le (UInt8.lt_iff_toNat_lt.mp hsel) h16
    exact ⟨_, updateSelected_eq_ok hsel hlt, rfl, rfl, fun _ => rfl⟩
  · exact ⟨c, by rw [updateSelected, if_neg hsel], .refl c⟩

theorem apply_spares (h16 : c.regionCount.toNat ≤ 16) {op : BusOp} (hop : op.SparesMask) :
    ∃ c', c.apply op = .ok c' ∧ c.KeepsMask c' := by
  cases op with
  | mask => exact hop.elim
  | restore => exact hop.elim
  | setBase => exact updateSelected_keepsMask h16 _
  | setAttributes => exact updateSelected_keepsMask h16 _
  | store a v => exact ⟨c.store a v, rfl, rfl, rfl, fun hmask => by simp only [store, hmask, if_true]⟩
  | _ => exact ⟨_, rfl, rfl, rfl, fun _ => rfl⟩

theorem issue_spares (h16 : c.regionCount.toNat ≤ 16) {op : BusOp} (hop : op.SparesMask) :
    ∃ c', c.issue op = .ok c' ∧ c.KeepsMask c' := by
  obtain ⟨c', happly, hkeep⟩ := apply_spares h16 hop
  exact ⟨c'.record op, by rw [issue, happly]; rfl, hkeep.1, hkeep.2, hkeep.3⟩

theorem issueAll_spares (ops : List BusOp) : ∀ {c : Core}, c.regionCount.toNat ≤ 16 →
    (∀ op ∈ ops, op.SparesMask) → ∃ c', c.issueAll ops = .ok c' ∧ c.KeepsMask c' := by
  induction ops with
  | nil =>
    intro c _ _
    exact ⟨c, rfl, .refl c⟩
  | cons op rest ih =>
    intro c h16 hops
    obtain ⟨hop, hrest⟩ := List.forall_mem_cons.mp hops
    obtain ⟨c₁, hissue, hkeep⟩ := issue_spares h16 hop
    obtain ⟨c', hall, hkeep'⟩ := ih (hkeep.regionCount_le h16) hrest
    exact ⟨c', by rw [issueAll, hissue]; exact hall, hkeep.trans hkeep'⟩

theorem issueAll_window (h16 : c.regionCount.toNat ≤ 16) (ops : List BusOp)
    (hops : ∀ op ∈ ops, op.SparesMask) :
    ∃ c', c.issueAll (.mask :: (ops ++ [.restore c.primask])) = .ok c' ∧ c.KeepsMask c' := by
  obtain ⟨c₁, hall, hkeep⟩ := issueAll_spares ops (c := c.masked) h16 hops
  exact ⟨c₁.restored c.primask, by rw [issueAll_mask, issueAll_restore hall], hkeep.window⟩

/-! ## Loads -/

theorem sparesMask_opening (control : UInt32) :
    ∀ op ∈ [BusOp.memoryBarrier, .setControl control], op.SparesMask := by
  simp [BusOp.SparesMask]

theorem sparesMask_closing (control : UInt32) :
    ∀ op ∈ [BusOp.setControl control, .syncBarrier, .fetchBarrier], op.SparesMask := by
  simp [BusOp.SparesMask]

theorem sparesMask_slot (s : Slot) : ∀ op ∈ s.loadOps, op.SparesMask := by
  simp [Slot.loadOps, BusOp.SparesMask]

theorem sparesMask_clearOps (used available : Nat) :
    ∀ op ∈ clearOps used available, op.SparesMask := by
  intro op hop
  obtain ⟨k, -, hop⟩ := List.mem_flatMap.mp hop
  simp only [List.mem_cons, List.not_mem_nil, or_false] at hop
  rcases hop with rfl | rfl <;> trivial

/-- A load masks interrupts first and restores them last. -/
theorem loadOps_eq_window (t : RegionTable) (available : UInt8) (primask : UInt32) :
    ∃ ops, t.loadOps available primask = .mask :: (ops ++ [.restore primask]) ∧
      ∀ op ∈ ops, op.SparesMask := by
  refine ⟨[.memoryBarrier, .setControl ControlWord.disabled] ++ t.slots.flatMap Slot.loadOps ++
    clearOps t.length available.toNat ++
    [.setControl ControlWord.running, .syncBarrier, .fetchBarrier], ?_, ?_⟩
  · simp [RegionTable.loadOps]
  · intro op hop
    rw [List.mem_append, List.mem_append, List.mem_append, List.mem_flatMap] at hop
    rcases hop with ((hopen | ⟨s, -, hslot⟩) | hclear) | hclose
    · exact sparesMask_opening _ op hopen
    · exact sparesMask_slot s op hslot
    · exact sparesMask_clearOps _ _ op hclear
    · exact sparesMask_closing _ op hclose

theorem load_keepsMask (h16 : c.regionCount.toNat ≤ 16) (t : RegionTable) :
    ∃ c' result, c.load t = .ok (c', result) ∧ c.KeepsMask c' := by
  rw [load]
  split
  · exact ⟨c, _, rfl, .refl c⟩
  · split
    · exact ⟨c, _, rfl, .refl c⟩
    · obtain ⟨ops, hops, hspares⟩ := loadOps_eq_window t c.regionCount c.primask
      obtain ⟨c', hall, hkeep⟩ := issueAll_window h16 ops hspares
      rw [hops, hall]
      exact ⟨c', .ok (), rfl, hkeep⟩

/-! ## Accesses -/

theorem exists_region {i : Nat} (hi : i < 16) : ∃ d, c.region i = .ok d :=
  ⟨c.regions[i], by rw [region, dif_pos hi]⟩

theorem exists_matchingRegion (h16 : c.regionCount.toNat ≤ 16) (a : UInt32) :
    ∃ r, c.matchingRegion a = .ok r ∧ ∀ i ∈ r, i < 16 := by
  rcases c.matchBelow_eq_ok a h16 with ⟨i, hmatch, hlt, -, -⟩ | ⟨hmatch, -⟩
  · exact ⟨some i, hmatch, by simpa using Nat.lt_of_lt_of_le hlt h16⟩
  · exact ⟨none, hmatch, nofun⟩

theorem exists_access (h16 : c.regionCount.toNat ≤ 16) (a : UInt32) (privileged : Bool) :
    ∃ rights, c.access a privileged = .ok rights := by
  obtain ⟨r, hmatch, hlt⟩ := exists_matchingRegion h16 a
  rw [access]
  split
  · rw [hmatch]
    cases r with
    | none => exact ⟨_, rfl⟩
    | some i =>
      obtain ⟨d, hregion⟩ := exists_region (c := c) (hlt i rfl)
      simp only [hregion]
      exact ⟨_, rfl⟩
  · exact ⟨_, rfl⟩

theorem exists_readByte (h16 : c.regionCount.toNat ≤ 16) (a : UInt32) :
    ∃ result, c.readByte a = .ok result := by
  obtain ⟨rights, hrights⟩ := exists_access h16 a true
  rw [readByte]
  split
  · exact ⟨_, rfl⟩
  · rw [hrights]
    exact ⟨_, rfl⟩

/-- Taken, refused or without memory to go to. -/
theorem writeByte_keepsMask (h16 : c.regionCount.toNat ≤ 16) (a : UInt32) (v : UInt8) :
    ∃ c' result, c.writeByte a v = .ok (c', result) ∧ c.KeepsMask c' := by
  obtain ⟨rights, hrights⟩ := exists_access h16 a true
  rw [writeByte]
  split
  · rw [hrights]
    simp only
    split
    · obtain ⟨c', hissue, hkeep⟩ := issue_spares h16 (show (BusOp.store a v).SparesMask from trivial)
      rw [hissue]
      exact ⟨c', .ok (), rfl, hkeep⟩
    · exact ⟨_, _, rfl, rfl, rfl, fun _ => rfl⟩
  · exact ⟨c, _, rfl, .refl c⟩

theorem writeSlice_keepsMask (data : List UInt8) : ∀ {c : Core} {a : UInt32},
    c.regionCount.toNat ≤ 16 →
    ∃ c' result, c.writeSlice a data = .ok (c', result) ∧ c.KeepsMask c' := by
  induction data with
  | nil =>
    intro c a _
    exact ⟨c, .ok (), rfl, .refl c⟩
  | cons v rest ih =>
    intro c a h16
    obtain ⟨c₁, first, hwrite, hkeep⟩ := writeByte_keepsMask h16 a v
    simp only [writeSlice, storeAll, hwrite, bind, Except.bind]
    cases first with
    | error e => exact ⟨c₁, .error e, rfl, hkeep⟩
    | ok =>
      obtain ⟨c', result, hrest, hkeep'⟩ := ih (a := a + 1) (hkeep.regionCount_le h16)
      exact ⟨c', result, hrest, hkeep.trans hkeep'⟩

theorem writeUnlocked_keepsMask (h16 : c.regionCount.toNat ≤ 16) (a : UInt32) (data : List UInt8) :
    ∃ c' result, c.writeUnlocked a data = .ok (c', result) ∧ c.KeepsMask c' := by
  rw [writeUnlocked]
  split
  · obtain ⟨c₁, hopen, hkeep₁⟩ := issueAll_spares _ (c := c.masked) h16
      (sparesMask_opening ControlWord.disabled)
    obtain ⟨c₂, result, hslice, hkeep₂⟩ := writeSlice_keepsMask data (a := a)
      (hkeep₁.regionCount_le h16)
    have hkeep := hkeep₁.trans hkeep₂
    obtain ⟨c₃, hclose, hkeep₃⟩ := issueAll_spares _ (hkeep.regionCount_le h16)
      (sparesMask_closing c.control)
    have hclose := issueAll_restore hclose c.primask
    rw [List.cons_append, List.cons_append, List.cons_append, List.nil_append] at hclose
    refine ⟨c₃.restored c.primask, result.mapError .fault, ?_, (hkeep.trans hkeep₃).window⟩
    simp only [issueAll_mask, hopen, hslice, hclose, bind, Except.bind, pure, Except.pure]
  · obtain ⟨c', hall, hkeep⟩ := issueAll_window h16 [] nofun
    rw [List.nil_append] at hall
    simp only [hall, bind, Except.bind]
    exact ⟨c', _, rfl, hkeep⟩

end Core

/-- Out of bounds, empty, unlocked, refused or faulting. -/
theorem Writer.write_keepsMask {c : Core} (h16 : c.regionCount.toNat ≤ 16) (w : Writer) (a : UInt32)
    (data : List UInt8) :
    ∃ c' result, w.write c a data = .ok (c', result) ∧ c.KeepsMask c' := by
  rw [write]
  split
  · split
    · exact ⟨c, _, rfl, .refl c⟩
    · split
      · exact Core.writeUnlocked_keepsMask h16 a data
      · obtain ⟨c', result, hslice, hkeep⟩ := Core.writeSlice_keepsMask data (a := a) h16
        rw [hslice]
        exact ⟨c', _, rfl, hkeep⟩
  · exact ⟨c, _, rfl, .refl c⟩

/-! ## Boots and dumps -/

theorem Snapshot.ofCore_keepsMask {c : Core} (h16 : c.regionCount.toNat ≤ 16) (count : UInt8) :
    ∃ c' s, ofCore c count = .ok (c', s) ∧ c.KeepsMask c' := by
  obtain ⟨i, -, hread⟩ := ofCore_eq_ok h16 count
  exact ⟨_, _, hread, rfl, rfl, fun _ => rfl⟩

theorem Protection.establish_keepsMask {c : Core} (h16 : c.regionCount.toNat ≤ 16) (config : Config)
    (log : Log) :
    ∃ c' p log', establish config c log = .ok (c', p, log') ∧ c.KeepsMask c' := by
  simp only [establish, boot]
  cases (Draft.ofConfig config).table with
  | error e => exact ⟨c, _, _, rfl, .refl c⟩
  | ok t =>
    obtain ⟨c', result, hload, hkeep⟩ := Core.load_keepsMask h16 t
    simp only [hload]
    cases result with
    | error e => exact ⟨c', _, _, rfl, hkeep⟩
    | ok => exact ⟨c', _, _, rfl, hkeep⟩

end CodeGuard
