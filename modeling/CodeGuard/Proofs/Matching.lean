import CodeGuard.Proofs.Loading

/-!
# CodeGuard.Proofs.Matching

Which region decides accesses at an address.

* `Core.matchBelow_eq_some_iff`, `Core.matchBelow_eq_none_iff`: the search finds the highest region
  that covers the address.
* `RegionTable.Decides`: the slot that is meant to decide, read off the table alone.
* `Core.matchingRegion_load`: after a load the unit decides as the table is meant, whatever the
  registers held before.
-/

namespace CodeGuard
namespace Core

variable {c : Core}

/-! ## The search -/

/-- Region `i` decides accesses at `x` unless a higher one does. -/
def Covers (c : Core) (i x : Nat) : Prop :=
  ∃ h : i < 16, c.regions[i].covers x = true

theorem matchBelow_eq_ok (a : UInt32) {n : Nat} (hn : n ≤ 16) :
    (∃ i, c.matchBelow a n = .ok (some i) ∧ i < n ∧ c.Covers i a.toNat ∧
      ∀ j, i < j → j < n → ¬ c.Covers j a.toNat) ∨
    c.matchBelow a n = .ok none ∧ ∀ j, j < n → ¬ c.Covers j a.toNat := by
  induction n with
  | zero => exact .inr ⟨rfl, fun j hj => absurd hj (Nat.not_lt_zero j)⟩
  | succ n ih =>
    have hn16 : n < 16 := hn
    simp only [matchBelow, region, dif_pos hn16]
    by_cases hcov : c.regions[n].covers a.toNat = true
    · rw [if_pos hcov]
      exact .inl ⟨n, rfl, Nat.lt_succ_self n, ⟨hn16, hcov⟩, fun j hj hj' => by omega⟩
    · rw [if_neg hcov]
      have hno : ¬ c.Covers n a.toNat := by
        rintro ⟨_, h⟩
        exact hcov h
      -- a region below `n + 1` is `n` itself or below it
      have hlift : ∀ j, j < n + 1 → (j < n → ¬ c.Covers j a.toNat) → ¬ c.Covers j a.toNat := by
        intro j hj hbelow
        rcases Nat.lt_succ_iff_lt_or_eq.mp hj with hj | rfl
        · exact hbelow hj
        · exact hno
      rcases ih (by omega) with ⟨i, hi, hlt, hci, habove⟩ | ⟨hnone, hall⟩
      · exact .inl ⟨i, hi, by omega, hci, fun j hij hj => hlift j hj (habove j hij)⟩
      · exact .inr ⟨hnone, fun j hj => hlift j hj (hall j)⟩

theorem matchBelow_eq_some_iff {a : UInt32} {n i : Nat} (hn : n ≤ 16) :
    c.matchBelow a n = .ok (some i) ↔
      i < n ∧ c.Covers i a.toNat ∧ ∀ j, i < j → j < n → ¬ c.Covers j a.toNat := by
  rcases c.matchBelow_eq_ok a hn with ⟨k, hk, hlt, hcov, habove⟩ | ⟨hnone, hall⟩
  · rw [hk]
    constructor
    · intro h
      cases h
      exact ⟨hlt, hcov, habove⟩
    · rintro ⟨hi, hci, hi'⟩
      have hki : k = i := by
        rcases Nat.lt_trichotomy k i with h | h | h
        · exact absurd hci (habove i h hi)
        · exact h
        · exact absurd hcov (hi' k h hlt)
      rw [hki]
  · rw [hnone]
    constructor
    · intro h
      cases h
    · rintro ⟨hi, hci, _⟩
      exact absurd hci (hall i hi)

theorem matchBelow_eq_none_iff {a : UInt32} {n : Nat} (hn : n ≤ 16) :
    c.matchBelow a n = .ok none ↔ ∀ j, j < n → ¬ c.Covers j a.toNat := by
  rcases c.matchBelow_eq_ok a hn with ⟨k, hk, hlt, hcov, _⟩ | ⟨hnone, hall⟩
  · rw [hk]
    constructor
    · intro h
      cases h
    · intro h
      exact absurd hcov (h k hlt)
  · exact ⟨fun _ => hall, fun _ => hnone⟩

end Core

/-! ## The meaning of a table -/

/-- The whole window of the region, whether or not the slot covers it to its end. -/
def Slot.Frames (s : Slot) (x : Nat) : Prop :=
  s.base.toNat ≤ x ∧ x < s.base.toNat + s.size.bytes

theorem Slot.holds_iff_frames {s : Slot} (h : s.eighths = 0) (x : Nat) :
    s.Holds x ↔ s.Frames x := by
  rw [Holds, Frames, consumed, if_pos h]

namespace RegionTable

/-- The number of the slot that is meant to decide at `x`: the guard wherever it reaches, else the
code slot that covers `x`, else the background. -/
inductive Decides (t : RegionTable) (x : Nat) : Option Nat → Prop where
  | guard : t.guard.Frames x → Decides t x (some t.guard.id.toNat)
  | code {k : Nat} (hk : k < t.code.length) :
      ¬ t.guard.Frames x → t.code[k].Holds x → Decides t x (some (k + 1))
  | background :
      ¬ t.guard.Frames x → (∀ s ∈ t.code, ¬ s.Holds x) → t.background.Frames x →
      Decides t x (some 0)
  | none :
      ¬ t.guard.Frames x → (∀ s ∈ t.code, ¬ s.Holds x) → ¬ t.background.Frames x →
      Decides t x none

theorem exists_decides (t : RegionTable) (x : Nat) : ∃ r, t.Decides x r := by
  by_cases hguard : t.guard.Frames x
  · exact ⟨_, .guard hguard⟩
  by_cases hcode : ∀ s ∈ t.code, ¬ s.Holds x
  · by_cases hback : t.background.Frames x
    · exact ⟨_, .background hguard hcode hback⟩
    · exact ⟨_, .none hguard hcode hback⟩
  · simp only [Classical.not_forall, Classical.not_not] at hcode
    obtain ⟨s, hs, hholds⟩ := hcode
    obtain ⟨k, hk, rfl⟩ := List.mem_iff_getElem.mp hs
    exact ⟨_, .code hk hguard hholds⟩

variable {t : RegionTable}

theorem getElem?_slots_succ (k : Nat) : t.slots[k + 1]? = (t.code ++ [t.guard])[k]? := rfl

theorem getElem?_slots_code {k : Nat} (hk : k < t.code.length) :
    t.slots[k + 1]? = some t.code[k] := by
  rw [getElem?_slots_succ, List.getElem?_append_left hk, List.getElem?_eq_getElem hk]

theorem getElem?_slots_guard : t.slots[t.code.length + 1]? = some t.guard := by
  rw [getElem?_slots_succ, List.getElem?_concat_length]

theorem WellFormed.guard_id (h : t.WellFormed) : t.guard.id.toNat = t.code.length + 1 := by
  obtain ⟨hlt, hget⟩ := List.getElem?_eq_some_iff.mp (getElem?_slots_guard (t := t))
  rw [← hget]
  exact h.id_getElem hlt

theorem Decides.holds_code {x k : Nat} (h : t.Decides x (some (k + 1))) (ht : t.WellFormed)
    (hk : k < t.code.length) : t.code[k].Holds x := by
  generalize hr : some (k + 1) = r at h
  cases h with
  | guard =>
    have := ht.guard_id
    have := Option.some.inj hr
    omega
  | code hk' _ hx =>
    have hkk := Option.some.inj hr
    cases hkk
    exact hx
  | background => cases hr
  | none => cases hr

theorem getElem?_slots_eq_some {j : Nat} {s : Slot} (h : t.slots[j]? = some s) :
    j = 0 ∧ s = t.background ∨ (∃ k, ∃ hk : k < t.code.length, j = k + 1 ∧ s = t.code[k]) ∨
      j = t.code.length + 1 ∧ s = t.guard := by
  cases j with
  | zero =>
    cases h
    exact .inl ⟨rfl, rfl⟩
  | succ k =>
    by_cases hk : k < t.code.length
    · rw [getElem?_slots_code hk] at h
      cases h
      exact .inr (.inl ⟨k, hk, rfl, rfl⟩)
    · rw [getElem?_slots_succ, List.getElem?_append_right (Nat.not_lt.mp hk),
        List.getElem?_singleton] at h
      split at h
      · rename_i hzero
        cases h
        exact .inr (.inr ⟨by omega, rfl⟩)
      · cases h

end RegionTable

namespace Core

variable {c c' : Core} {t : RegionTable}

theorem Loaded.covers_iff (h : c.Loaded t c') {k : Nat} (hk : k < c.regionCount.toNat) (x : Nat) :
    c'.Covers k x ↔ ∃ s, t.slots[k]? = some s ∧ s.Holds x := by
  have hk16 : k < 16 := Nat.lt_of_lt_of_le hk h.regionCount_le
  by_cases hlen : k < t.slots.length
  · have hmem := List.getElem_mem hlen
    have hcov := (h.wellFormed.placed _ hmem).covers_descriptor (h.wellFormed.enabled _ hmem) x
    rw [Covers, List.getElem?_eq_getElem hlen]
    simp only [hk16, exists_true_left, h.slot k hlen hk16, hcov, Option.some.injEq,
      exists_eq_left']
  · have hleft := h.leftover k hk16 (by rw [t.length_slots] at hlen; omega) hk
    rw [Covers, List.getElem?_eq_none (Nat.not_lt.mp hlen)]
    simp only [hk16, exists_true_left, hleft, reduceCtorEq, false_and,
      exists_false, iff_false]
    -- a region whose attributes are zero is off
    simp [Descriptor.covers, Descriptor.enabled, BitField.isSet, BitField.read]

/-- After a load only slots of the table cover an address. -/
theorem Loaded.covers_cases (h : c.Loaded t c') {j x : Nat} (hj : j < c.regionCount.toNat)
    (hcov : c'.Covers j x) :
    j = 0 ∧ t.background.Frames x ∨
      (∃ k, ∃ hk : k < t.code.length, j = k + 1 ∧ t.code[k].Holds x) ∨
      j = t.code.length + 1 ∧ t.guard.Frames x := by
  obtain ⟨s, hs, hholds⟩ := (h.covers_iff hj x).mp hcov
  rcases t.getElem?_slots_eq_some hs with ⟨hj, rfl⟩ | ⟨k, hk, hj, rfl⟩ | ⟨hj, rfl⟩
  · exact .inl ⟨hj, (Slot.holds_iff_frames h.wellFormed.background_whole x).mp hholds⟩
  · exact .inr (.inl ⟨k, hk, hj, hholds⟩)
  · exact .inr (.inr ⟨hj, (Slot.holds_iff_frames h.wellFormed.guard_whole x).mp hholds⟩)

theorem Loaded.matchingRegion_of_decides (h : c.Loaded t c') {a : UInt32} {r : Option Nat}
    (hr : t.Decides a.toNat r) : c'.matchingRegion a = .ok r := by
  have hlen : t.code.length + 2 ≤ c.regionCount.toNat := h.fits
  rw [matchingRegion, h.regionCount_eq]
  cases hr with
  | guard hg =>
    rw [matchBelow_eq_some_iff h.regionCount_le, h.wellFormed.guard_id]
    refine ⟨by omega, ?_, fun j hj hj' hcov => ?_⟩
    · rw [h.covers_iff (by omega)]
      exact ⟨_, t.getElem?_slots_guard, (Slot.holds_iff_frames h.wellFormed.guard_whole _).mpr hg⟩
    · rcases h.covers_cases hj' hcov with ⟨hj0, _⟩ | ⟨k, hk, hjk, _⟩ | ⟨hjg, _⟩ <;> omega
  | @code k hk hg hc =>
    rw [matchBelow_eq_some_iff h.regionCount_le]
    refine ⟨by omega, ?_, fun j hj hj' hcov => ?_⟩
    · rw [h.covers_iff (by omega)]
      exact ⟨_, t.getElem?_slots_code hk, hc⟩
    · rcases h.covers_cases hj' hcov with ⟨hj0, _⟩ | ⟨k', hk', hjk, hc'⟩ | ⟨_, hg'⟩
      · omega
      · -- the code slots are in order, so no two of them cover one address
        have := List.pairwise_iff_getElem.mp h.wellFormed.ordered k k' hk hk' (by omega)
        exact absurd hc.2 (Nat.not_lt.mpr (Nat.le_trans this hc'.1))
      · exact hg hg'
  | background hg hc hb =>
    rw [matchBelow_eq_some_iff h.regionCount_le]
    refine ⟨by omega, ?_, fun j hj hj' hcov => ?_⟩
    · rw [h.covers_iff (by omega)]
      exact ⟨t.background, rfl, (Slot.holds_iff_frames h.wellFormed.background_whole _).mpr hb⟩
    · rcases h.covers_cases hj' hcov with ⟨hj0, _⟩ | ⟨k, hk, _, hc'⟩ | ⟨_, hg'⟩
      · omega
      · exact hc _ (List.getElem_mem hk) hc'
      · exact hg hg'
  | none hg hc hb =>
    rw [matchBelow_eq_none_iff h.regionCount_le]
    intro j hj hcov
    rcases h.covers_cases hj hcov with ⟨_, hb'⟩ | ⟨k, hk, _, hc'⟩ | ⟨_, hg'⟩
    · exact hb hb'
    · exact hc _ (List.getElem_mem hk) hc'
    · exact hg hg'

theorem Loaded.matchingRegion_eq_ok_iff (h : c.Loaded t c') {a : UInt32} {r : Option Nat} :
    c'.matchingRegion a = .ok r ↔ t.Decides a.toNat r := by
  refine ⟨fun hr => ?_, h.matchingRegion_of_decides⟩
  obtain ⟨r', hr'⟩ := t.exists_decides a.toNat
  have heq := h.matchingRegion_of_decides hr'
  rw [hr] at heq
  cases heq
  exact hr'

/-- **A loaded table decides every access.** From any core with room for the table, a load succeeds.
After it the slot that decides at an address is the one that the table means, which says nothing of
the registers before; and no region past the table is on. -/
theorem matchingRegion_load {t : RegionTable} (ht : t.Accepted) {c : Core}
    (hfit : t.length ≤ c.regionCount.toNat) (h16 : c.regionCount.toNat ≤ 16) :
    ∃ c', c.load t = .ok (c', .ok ()) ∧
      (∀ (a : UInt32) (r : Option Nat), c'.matchingRegion a = .ok r ↔ t.Decides a.toNat r) ∧
      ∀ k (hk : k < 16), t.length ≤ k → k < c.regionCount.toNat →
        c'.regions[k].enabled = false := by
  obtain ⟨c', hload, hloaded⟩ := load_eq_ok ht.wellFormed hfit h16
  refine ⟨c', hload, fun a r => ?_, fun k hk hle hlt => ?_⟩
  · exact hloaded.matchingRegion_eq_ok_iff
  · rw [hloaded.leftover k hk hle hlt]
    rfl

/-- A guard that starts within the code wins over it, whatever regions were on before. -/
theorem matchingRegion_load_overlap :
    ∃ t, RegionTable.build ⟨[.whole 0 0x10000, ⟨0x10000, 0x10000, 5⟩]⟩ 0x8000 .reference = .ok t ∧
      ∃ c', load { reset 8 64 with regions := .replicate 16 ⟨0, 0x3F⟩ } t = .ok (c', .ok ()) ∧
        c'.matchingRegion 0x8000 = .ok (some 3) ∧ c'.matchingRegion 0x7FFF = .ok (some 1) := by
  have hcover : Layout.cover (0x1A000 : UInt32).toNat 6 .reference =
      .ok ⟨[.whole 0 0x10000, ⟨0x10000, 0x10000, 5⟩]⟩ := by rfl
  refine ⟨_, rfl, ?_⟩
  have hbuild : RegionTable.build ⟨[.whole 0 0x10000, ⟨0x10000, 0x10000, 5⟩]⟩ 0x8000 .reference =
      .ok _ := rfl
  obtain ⟨c', hload, hmatch, _⟩ := matchingRegion_load (.build hcover hbuild)
    (c := { reset 8 64 with regions := .replicate 16 ⟨0, 0x3F⟩ }) (by decide) (by decide)
  refine ⟨c', hload, (hmatch _ _).mpr (.guard ⟨by decide, by decide⟩), (hmatch _ _).mpr ?_⟩
  exact .code (k := 0) (by decide) (fun h => absurd h.1 (by decide)) ⟨by decide, by decide⟩

end Core
end CodeGuard
