import Mathlib.Data.List.Forall2
import CodeGuard.Proofs.Cover
import CodeGuard.Proofs.Decoding
import CodeGuard.RegionTable

/-!
# CodeGuard.Proofs.Table

What a region table is made of once it was accepted.

* `Slot.Protects`: a slot stands for a block; both cover the same addresses.
* `Slot.guardBase?_eq_some`: the guard starts at the first multiple of its size at or after the end
  of the code.
* `RegionTable.Accepted`: the tables that can be built. `Accepted.wellFormed`: their slots are
  numbered by their place, the unit reads each of them as it is meant, and code slots do not
  overlap.
-/

namespace CodeGuard

/-! ## The three roles of a slot -/

namespace Slot

/-- The slot stands for the block, with the rights of protected code. -/
structure Protects (s : Slot) (b : Block) : Prop where
  base : s.base.toNat = b.base
  bytes : s.size.bytes = b.size
  eighths : s.eighths = b.eighths
  aligned : b.size ∣ b.base
  permission : s.permission = .readOnly
  executable : s.executable = true
  enabled : s.enabled = true

theorem Protects.consumed {s : Slot} {b : Block} (h : s.Protects b) : s.consumed = b.consumed := by
  rw [Slot.consumed, Block.consumed, h.bytes, h.eighths]

theorem Protects.holds_iff {s : Slot} {b : Block} (h : s.Protects b) (x : Nat) :
    s.Holds x ↔ b.Holds x := by
  rw [Holds, Block.Holds, Block.finish, h.base, h.consumed]

theorem ofBlock_eq_ok {id : UInt8} {b : Block} {s : Slot} (hb : b.base < UInt32.size)
    (h : ofBlock id b = .ok s) : s.id = id ∧ s.Protects b := by
  simp only [ofBlock] at h
  split at h
  · cases h
  · rename_i n hn
    split at h
    · cases h
    · rename_i halign
      cases h
      exact ⟨rfl, {
        base := UInt32.toNat_ofNat_of_lt' hb
        bytes := RegionSize.ofBytes?_eq_some_iff.mp hn
        eighths := rfl
        aligned := Nat.dvd_of_mod_eq_zero (Decidable.not_not.mp halign)
        permission := rfl
        executable := rfl
        enabled := rfl }⟩

structure Spans (s : Slot) (w : Window) (executable : Bool) : Prop where
  id : s.id = 0
  base : s.base = w.base
  bytes : s.size.bytes = w.size.toNat
  eighths : s.eighths = 0
  aligned : w.size.toNat ∣ w.base.toNat
  permission : s.permission = .fullAccess
  executable : s.executable = executable
  enabled : s.enabled = true

theorem ofBackground_eq_ok {w : Window} {x : Bool} {s : Slot} (h : ofBackground w x = .ok s) :
    s.Spans w x := by
  simp only [ofBackground] at h
  split at h
  · cases h
  · rename_i hw
    obtain ⟨_, _, halign⟩ := Decidable.not_not.mp hw
    split at h
    · cases h
    · rename_i n hn
      cases h
      exact {
        id := rfl
        base := rfl
        bytes := RegionSize.ofBytes?_eq_some_iff.mp hn
        eighths := rfl
        aligned := Nat.dvd_of_mod_eq_zero halign
        permission := rfl
        executable := rfl
        enabled := rfl }

/-- The first multiple of the guard's size at or after the end of the code, if it and the guard's
last byte are addresses. -/
theorem guardBase?_eq_some {codeEnd guardSize base : UInt32} (hpos : 0 < guardSize.toNat)
    (h : guardBase? codeEnd guardSize = some base) :
    guardSize.toNat ∣ base.toNat ∧ codeEnd.toNat ≤ base.toNat ∧
      base.toNat < codeEnd.toNat + guardSize.toNat := by
  simp only [guardBase?] at h
  split at h
  · rename_i hreach
    cases h
    have hle := Nat.div_mul_le_self (codeEnd.toNat + (guardSize.toNat - 1)) guardSize.toNat
    have hlt := Nat.lt_div_mul_add hpos (a := codeEnd.toNat + (guardSize.toNat - 1))
    rw [UInt32.toNat_ofNat_of_lt' (Nat.lt_of_le_of_lt hle hreach)]
    exact ⟨Nat.dvd_mul_left _ _, by omega, by omega⟩
  · cases h

/-- The slot closes the first window of its size at or after the end of the code. -/
structure Guards (s : Slot) (codeEnd guardSize : UInt32) : Prop where
  bytes : s.size.bytes = guardSize.toNat
  base : guardBase? codeEnd guardSize = some s.base
  eighths : s.eighths = 0
  permission : s.permission = .noAccess
  executable : s.executable = false
  enabled : s.enabled = true

theorem ofGuard_eq_ok {id : UInt8} {codeEnd guardSize : UInt32} {s : Slot}
    (h : ofGuard id codeEnd guardSize = .ok s) : s.id = id ∧ s.Guards codeEnd guardSize := by
  simp only [ofGuard] at h
  split at h
  · cases h
  · rename_i n hn
    split at h
    · cases h
    · rename_i base hbase
      cases h
      exact ⟨rfl, {
        bytes := RegionSize.ofBytes?_eq_some_iff.mp hn
        base := hbase
        eighths := rfl
        permission := rfl
        executable := rfl
        enabled := rfl }⟩

theorem Guards.bounds {s : Slot} {codeEnd guardSize : UInt32} (h : s.Guards codeEnd guardSize) :
    guardSize.toNat ∣ s.base.toNat ∧ codeEnd.toNat ≤ s.base.toNat ∧
      s.base.toNat < codeEnd.toNat + guardSize.toNat := by
  refine guardBase?_eq_some ?_ h.base
  rw [← h.bytes]
  exact Nat.lt_of_lt_of_le (by decide) s.size.thirtyTwo_le_bytes

end Slot

/-! ## Tables -/

namespace RegionTable

theorem codeSlots_eq_ok {bs : List Block} : ∀ {n : Nat} {ss : List Slot},
    (∀ b ∈ bs, b.base < UInt32.size) → n + bs.length ≤ 256 → codeSlots n bs = .ok ss →
      List.Forall₂ Slot.Protects ss bs ∧ ss.map (·.id.toNat) = List.range' n bs.length := by
  induction bs with
  | nil =>
    intro n ss _ _ h
    cases h
    exact ⟨.nil, rfl⟩
  | cons b bs ih =>
    intro n ss hbase hn h
    rw [List.length_cons] at hn
    simp only [codeSlots] at h
    split at h
    · cases h
    · rename_i s hs
      split at h
      · cases h
      · rename_i ss' hss
        cases h
        obtain ⟨hid, hprot⟩ := Slot.ofBlock_eq_ok (hbase b List.mem_cons_self) hs
        obtain ⟨hall, hids⟩ :=
          ih (fun b' hb' => hbase b' (List.mem_cons_of_mem _ hb')) (by omega) hss
        refine ⟨.cons hprot hall, ?_⟩
        rw [List.map_cons, hids, hid, List.length_cons, List.range'_succ,
          UInt8.toNat_ofNat_of_lt' (show n < 256 by omega)]

/-- What is in a table that was accepted for the blocks of a layout. -/
structure Assembles (t : RegionTable) (l : Layout) (codeEnd : UInt32) (config : Config)
    (executable : Bool) : Prop where
  length_le : t.length ≤ 16
  numbered : t.slots.map (·.id.toNat) = List.range t.length
  code : List.Forall₂ Slot.Protects t.code l.blocks
  background : t.background.Spans config.background executable
  guard : t.guard.Guards codeEnd config.guardSize
  codeEnd_eq : t.codeEnd = codeEnd

theorem assemble_eq_ok {l : Layout} {codeEnd : UInt32} {config : Config} {x : Bool}
    {t : RegionTable} (hbase : ∀ b ∈ l.blocks, b.base < UInt32.size)
    (h : assemble l codeEnd config x = .ok t) : t.Assembles l codeEnd config x := by
  simp only [assemble] at h
  split at h
  · cases h
  · rename_i hroom
    have hroom : l.length + 2 ≤ 16 := Nat.not_lt.mp hroom
    split at h
    · cases h
    · rename_i code hcode
      split at h
      · cases h
      · rename_i background hback
        split at h
        · cases h
        · rename_i guard hguard
          cases h
          have hlen : l.blocks.length + 2 ≤ 16 := hroom
          obtain ⟨hall, hids⟩ := codeSlots_eq_ok hbase (by omega) hcode
          obtain ⟨hid, hguards⟩ := Slot.ofGuard_eq_ok hguard
          have hspans := Slot.ofBackground_eq_ok hback
          have hcodelen : code.length = l.blocks.length := hall.length_eq
          refine {
            length_le := by simp only [RegionTable.length]; omega
            numbered := ?_
            code := hall
            background := hspans
            guard := hguards
            codeEnd_eq := rfl }
          have hgid : guard.id.toNat = code.length + 1 := by
            rw [hid, hcodelen]
            exact UInt8.toNat_ofNat_of_lt' (show l.blocks.length + 1 < 256 by omega)
          simp only [slots, RegionTable.length, List.map_cons, List.map_append, List.map_nil, hids,
            hspans.id, hgid, ← hcodelen]
          rw [List.range_eq_range', List.range'_succ, List.range'_concat]
          simp [Nat.add_comm]

/-- What makes the unit follow the table: slots are numbered by their place, each is read as it is
meant, and code slots do not overlap. -/
structure WellFormed (t : RegionTable) : Prop where
  length_le : t.length ≤ 16
  numbered : t.slots.map (·.id.toNat) = List.range t.length
  background_whole : t.background.eighths = 0
  guard_whole : t.guard.eighths = 0
  placed : ∀ s ∈ t.slots, s.Placed
  enabled : ∀ s ∈ t.slots, s.enabled = true
  ordered : t.code.Pairwise fun s s' => s.base.toNat + s.consumed ≤ s'.base.toNat

theorem exists_of_forall₂ {α β : Type} {R : α → β → Prop} {xs : List α} {ys : List β}
    (h : List.Forall₂ R xs ys) : ∀ x ∈ xs, ∃ y ∈ ys, R x y := by
  induction h with
  | nil => intro x hx; cases hx
  | cons hxy _ ih =>
    intro x hx
    rcases List.mem_cons.mp hx with rfl | hx
    · exact ⟨_, List.mem_cons_self, hxy⟩
    · obtain ⟨y, hy, hxy⟩ := ih x hx
      exact ⟨y, List.mem_cons_of_mem _ hy, hxy⟩

section Protects

variable {ss : List Slot} {bs : List Block}

theorem exists_slot (h : List.Forall₂ Slot.Protects ss bs) : ∀ b ∈ bs, ∃ s ∈ ss, s.Protects b :=
  exists_of_forall₂ (R := fun b (s : Slot) => s.Protects b) h.flip

theorem ordered_of_protects (h : List.Forall₂ Slot.Protects ss bs)
    (hbs : bs.Pairwise fun b b' => b.finish ≤ b'.base) :
    ss.Pairwise fun s s' => s.base.toNat + s.consumed ≤ s'.base.toNat := by
  induction h with
  | nil => exact .nil
  | @cons s b ss bs hprot hrest ih =>
    rw [List.pairwise_cons] at hbs ⊢
    refine ⟨fun s' hs' => ?_, ih hbs.2⟩
    obtain ⟨b', hb', hprot'⟩ := exists_of_forall₂ hrest s' hs'
    rw [hprot.base, hprot.consumed, hprot'.base]
    exact hbs.1 b' hb'

theorem consumed_of_protects (h : List.Forall₂ Slot.Protects ss bs) :
    ss.foldr (fun s sum => s.consumed + sum) 0 = bs.foldr (fun b sum => b.consumed + sum) 0 := by
  induction h with
  | nil => rfl
  | cons hs _ ih => rw [List.foldr_cons, List.foldr_cons, ih, hs.consumed]

/-- The block that a slot stands for. -/
theorem blocks_of_protects (h : List.Forall₂ Slot.Protects ss bs) :
    ss.map (fun s => (⟨s.base.toNat, s.size.bytes, s.eighths⟩ : Block)) = bs := by
  induction h with
  | nil => rfl
  | cons hs _ ih => rw [List.map_cons, ih, hs.base, hs.bytes, hs.eighths]

end Protects

theorem base_lt_of_tiles {sizes : SizeTable} {total : UInt32} {bs : List Block}
    (h : Tiles sizes 0 total.toNat bs) : ∀ b ∈ bs, b.base < UInt32.size := by
  intro b hb
  have hfin := (h.bounds b hb).2
  have htotal := total.toNat_lt_size
  rw [Block.finish] at hfin
  omega

theorem Assembles.wellFormed {sizes : SizeTable} {total : Nat} {t : RegionTable} {l : Layout}
    {codeEnd : UInt32} {config : Config} {x : Bool} (h : t.Assembles l codeEnd config x)
    (htiles : Tiles sizes 0 total l.blocks) : t.WellFormed := by
  have hcode : ∀ s ∈ t.code, s.Placed ∧ s.enabled = true := by
    intro s hs
    obtain ⟨b, hb, hprot⟩ := exists_of_forall₂ h.code s hs
    refine ⟨⟨?_, ?_⟩, hprot.enabled⟩
    · rw [hprot.bytes, hprot.base]
      exact hprot.aligned
    · rw [hprot.eighths, hprot.bytes]
      rcases htiles.eighths_cases b hb with h0 | ⟨h1, h7, _, hbig⟩
      · exact .inl h0
      · exact .inr ⟨h1, h7, hbig⟩
  have hback : t.background.Placed :=
    ⟨h.background.bytes ▸ h.background.base ▸ h.background.aligned, .inl h.background.eighths⟩
  have hguard : t.guard.Placed := ⟨h.guard.bytes ▸ h.guard.bounds.1, .inl h.guard.eighths⟩
  have hall : ∀ s ∈ t.slots, s.Placed ∧ s.enabled = true := by
    intro s hs
    simp only [slots, List.mem_cons, List.mem_append, List.not_mem_nil, or_false] at hs
    rcases hs with rfl | hs | rfl
    · exact ⟨hback, h.background.enabled⟩
    · exact hcode s hs
    · exact ⟨hguard, h.guard.enabled⟩
  exact {
    length_le := h.length_le
    numbered := h.numbered
    background_whole := h.background.eighths
    guard_whole := h.guard.eighths
    placed := fun s hs => (hall s hs).1
    enabled := fun s hs => (hall s hs).2
    ordered := ordered_of_protects h.code htiles.pairwise }

/-- The code slots cover the image and nothing else. -/
theorem Assembles.exists_holds_iff {sizes : SizeTable} {total : Nat} {t : RegionTable} {l : Layout}
    {codeEnd : UInt32} {config : Config} {x : Bool} (h : t.Assembles l codeEnd config x)
    (htiles : Tiles sizes 0 total l.blocks) (a : Nat) : (∃ s ∈ t.code, s.Holds a) ↔ a < total := by
  have hblocks := htiles.exists_holds_iff a
  simp only [Nat.zero_le, true_and] at hblocks
  rw [← hblocks]
  constructor
  · rintro ⟨s, hs, ha⟩
    obtain ⟨b, hb, hprot⟩ := exists_of_forall₂ h.code s hs
    exact ⟨b, hb, (hprot.holds_iff a).mp ha⟩
  · rintro ⟨b, hb, ha⟩
    obtain ⟨s, hs, hprot⟩ := exists_slot h.code b hb
    exact ⟨s, hs, (hprot.holds_iff a).mpr ha⟩

theorem Assembles.codeSize_eq {t : RegionTable} {l : Layout} {codeEnd : UInt32} {config : Config}
    {x : Bool} (h : t.Assembles l codeEnd config x) : t.codeSize = l.covered :=
  consumed_of_protects h.code

/-- The tables that can be built: for a layout that was found, whatever the end of the code is said
to be, or without code regions. -/
inductive Accepted : RegionTable → Prop where
  | build {sizes : SizeTable} {total codeEnd : UInt32} {maxSlots : Nat} {l : Layout}
      {config : Config} {t : RegionTable} :
      Layout.cover total.toNat maxSlots sizes = .ok l → build l codeEnd config = .ok t → Accepted t
  | unprotected {codeEnd : UInt32} {config : Config} {t : RegionTable} :
      unprotected codeEnd config = .ok t → Accepted t

theorem assembles_of_build {sizes : SizeTable} {total codeEnd : UInt32} {maxSlots : Nat}
    {l : Layout} {config : Config} {t : RegionTable}
    (hcover : Layout.cover total.toNat maxSlots sizes = .ok l)
    (h : build l codeEnd config = .ok t) :
    t.Assembles l codeEnd config false :=
  assemble_eq_ok (base_lt_of_tiles (Layout.tiles_of_cover hcover).1) h

theorem assembles_of_unprotected {codeEnd : UInt32} {config : Config} {t : RegionTable}
    (h : unprotected codeEnd config = .ok t) : t.Assembles .empty codeEnd config true :=
  assemble_eq_ok (by intro b hb; cases hb) h

theorem Accepted.wellFormed {t : RegionTable} (h : t.Accepted) : t.WellFormed := by
  cases h with
  | build hcover hbuild =>
    exact (assembles_of_build hcover hbuild).wellFormed (Layout.tiles_of_cover hcover).1
  | unprotected hbuild =>
    exact (assembles_of_unprotected hbuild).wellFormed (Tiles.nil (t := .reference))

end RegionTable
end CodeGuard
