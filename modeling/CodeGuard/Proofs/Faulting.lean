import Mathlib.Algebra.Group.Nat.Defs
import Mathlib.Logic.Function.Basic
import Mathlib.Order.Bounds.Defs
import CodeGuard.Writer

/-!
# CodeGuard.Proofs.Faulting

A run of stores over a memory where some addresses fail.

* `StoresExcept`: any memory that stores a byte, or fails and keeps its cells, by the address alone.
* `Puts`: stores that all succeed, one after the other. `Puts.get_eq`: the cells after them.
* `Halts`: how a run of stores comes to its end. `Halts.cons`: by one byte more.
* `storeAll_stops`: a run of stores goes on to the first address that fails, and no further.
-/

namespace CodeGuard

/-! ## Addresses of a run -/

/-- The address of byte `i` of a run from `a` on. The address after the last one is 0. -/
def addressAt (a : UInt32) (i : Nat) : UInt32 :=
  UInt32.ofNat (a.toNat + i)

theorem toNat_addressAt (a : UInt32) (i : Nat) :
    (addressAt a i).toNat = (a.toNat + i) % 2 ^ 32 :=
  UInt32.toNat_ofNat'

theorem addressAt_zero (a : UInt32) : addressAt a 0 = a :=
  UInt32.ofNat_toNat

theorem addressAt_succ (a : UInt32) (i : Nat) : addressAt (a + 1) i = addressAt a (i + 1) := by
  rw [← UInt32.toNat_inj, toNat_addressAt, toNat_addressAt, UInt32.toNat_add, UInt32.toNat_one]
  omega

theorem addressAt_ne {a : UInt32} {i j : Nat} (hij : i < j) (hj : j < 2 ^ 32) :
    addressAt a i ≠ addressAt a j := by
  rw [Ne, ← UInt32.toNat_inj, toNat_addressAt, toNat_addressAt]
  omega

/-- A run that ends within the address space has its addresses in a row. -/
theorem toNat_addressAt_of_le {a : UInt32} {n : Nat} (h : a.toNat + n ≤ 2 ^ 32 - 1) :
    ∀ i ≤ n, (addressAt a i).toNat = a.toNat + i := by
  intro i hi
  rw [toNat_addressAt]
  omega

theorem Writer.Admits.end_le {w : Writer} {a : UInt32} {n : Nat} (h : w.Admits a n) :
    a.toNat + n ≤ 2 ^ 32 - 1 := by
  have hlimit := w.limit.toNat_lt
  have hend := h.2
  omega

/-! ## Memories that fail at some addresses -/

section Stores

variable {σ ε : Type} {put : σ → UInt32 → UInt8 → σ × Except ε Unit}
  {get : σ → UInt32 → Option UInt8} {faulty : σ → Set UInt32}

variable (put get faulty) in
/-- `put` fails at the addresses of `faulty` and keeps all cells, and stores its byte at any other.
Which addresses fail never changes; what else the state holds may. -/
structure StoresExcept : Prop where
  store : ∀ s a v, a ∉ faulty s →
    ∃ s', put s a v = (s', .ok ()) ∧ get s' = Function.update (get s) a (some v) ∧
      faulty s' = faulty s
  refuse : ∀ s a v, a ∈ faulty s →
    ∃ s' e, put s a v = (s', .error e) ∧ get s' = get s ∧ faulty s' = faulty s

variable (put) in
/-- The bytes are stored from `a` on, one after the other, and none fails. -/
inductive Puts : σ → UInt32 → List UInt8 → σ → Prop where
  | nil {s : σ} {a : UInt32} : Puts s a [] s
  | cons {s s₁ s' : σ} {a : UInt32} {v : UInt8} {rest : List UInt8} :
      put s a v = (s₁, .ok ()) → Puts s₁ (a + 1) rest s' → Puts s a (v :: rest) s'

variable (put faulty) in
/-- How the stores of `data` from `a` on end. Either no address fails and all bytes are stored. Or
the bytes before the first address that fails are stored, the store there is the last one that is
tried, and its error is the answer. -/
inductive Halts (s : σ) (a : UInt32) (data : List UInt8) : Nat → σ → Except ε Unit → Prop where
  | done {s' : σ} : (∀ i < data.length, addressAt a i ∉ faulty s) → Puts put s a data s' →
      Halts s a data data.length s' (.ok ())
  | refused {k : Nat} {s₁ s' : σ} {e : ε} (hk : k < data.length) :
      IsLeast {i | i < data.length ∧ addressAt a i ∈ faulty s} k →
      Puts put s a (data.take k) s₁ → put s₁ (addressAt a k) data[k] = (s', .error e) →
      Halts s a data k s' (.error e)

namespace StoresExcept

variable {s s' : σ} {a : UInt32} {v : UInt8}

theorem of_ok (h : StoresExcept put get faulty) (hput : put s a v = (s', .ok ())) :
    a ∉ faulty s ∧ get s' = Function.update (get s) a (some v) ∧ faulty s' = faulty s := by
  by_cases ha : a ∈ faulty s
  · obtain ⟨_, _, hrefuse, -⟩ := h.refuse s a v ha
    rw [hput] at hrefuse
    cases hrefuse
  · obtain ⟨s₁, hstore, hget, hfaulty⟩ := h.store s a v ha
    rw [hput] at hstore
    cases hstore
    exact ⟨ha, hget, hfaulty⟩

theorem of_error (h : StoresExcept put get faulty) {e : ε} (hput : put s a v = (s', .error e)) :
    get s' = get s := by
  by_cases ha : a ∈ faulty s
  · obtain ⟨s₁, e', hrefuse, hget, -⟩ := h.refuse s a v ha
    rw [hput] at hrefuse
    cases hrefuse
    exact hget
  · obtain ⟨_, hstore, -⟩ := h.store s a v ha
    rw [hput] at hstore
    cases hstore

end StoresExcept

/-- The cells after stores of which none fails. No two of them go to one address. -/
theorem Puts.get_eq (h : StoresExcept put get faulty) {s s' : σ} {a : UInt32} {data : List UInt8}
    (hputs : Puts put s a data s') (hlen : data.length ≤ 2 ^ 32) :
    (∀ i (hi : i < data.length), get s' (addressAt a i) = some data[i]) ∧
      ∀ x, (∀ i < data.length, x ≠ addressAt a i) → get s' x = get s x := by
  induction hputs with
  | nil => exact ⟨fun i hi => absurd hi (Nat.not_lt_zero i), fun _ _ => rfl⟩
  | @cons s s₁ s' a v rest hput _ ih =>
    rw [List.length_cons] at hlen
    obtain ⟨-, hget, -⟩ := h.of_ok hput
    obtain ⟨hcells, hkept⟩ := ih (by omega)
    simp only [addressAt_succ] at hcells hkept
    refine ⟨fun i hi => ?_, fun x hx => ?_⟩
    · cases i with
      | zero =>
        -- the later stores go elsewhere
        rw [hkept _ fun j hj => addressAt_ne (Nat.zero_lt_succ j) (by omega), addressAt_zero, hget,
          Function.update_self]
        rfl
      | succ i => exact hcells i (Nat.lt_of_succ_lt_succ hi)
    · have hxa : x ≠ a := by
        have hx0 := hx 0 (Nat.zero_lt_succ _)
        rwa [addressAt_zero] at hx0
      rw [hkept x fun i hi => hx (i + 1) (Nat.succ_lt_succ hi), hget, Function.update_of_ne hxa]

theorem Halts.cons {s s₁ s' : σ} {a : UInt32} {v : UInt8} {rest : List UInt8} {k : Nat}
    {result : Except ε Unit} (hput : put s a v = (s₁, .ok ())) (ha : a ∉ faulty s)
    (hfaulty : faulty s₁ = faulty s) (h : Halts put faulty s₁ (a + 1) rest k s' result) :
    Halts put faulty s a (v :: rest) (k + 1) s' result := by
  cases h with
  | done hall hputs =>
    refine .done (fun i hi => ?_) (.cons hput hputs)
    cases i with
    | zero => rwa [addressAt_zero]
    | succ i =>
      rw [← addressAt_succ, ← hfaulty]
      exact hall i (Nat.lt_of_succ_lt_succ hi)
  | @refused k s₂ s' e hk hleast hputs herror =>
    obtain ⟨⟨_, hmem⟩, hmin⟩ := hleast
    rw [addressAt_succ] at hmem herror
    refine .refused (Nat.succ_lt_succ hk) ⟨⟨Nat.succ_lt_succ hk, hfaulty ▸ hmem⟩, ?_⟩
      (.cons hput hputs) herror
    rintro i ⟨hi, hi'⟩
    cases i with
    | zero => exact absurd (addressAt_zero a ▸ hi') ha
    | succ i =>
      rw [← addressAt_succ, ← hfaulty] at hi'
      exact Nat.succ_le_succ (hmin ⟨Nat.lt_of_succ_lt_succ hi, hi'⟩)

theorem Halts.ok_iff {s s' : σ} {a : UInt32} {data : List UInt8} {k : Nat} {result : Except ε Unit}
    (h : Halts put faulty s a data k s' result) :
    result = .ok () ↔ ∀ i < data.length, addressAt a i ∉ faulty s := by
  cases h with
  | done hall _ => exact iff_of_true rfl hall
  | refused hk hleast _ _ => exact iff_of_false nofun fun hall => hall _ hk hleast.1.2

theorem Halts.get_eq (h : StoresExcept put get faulty) {s s' : σ} {a : UInt32} {data : List UInt8}
    {k : Nat} {result : Except ε Unit} (hhalts : Halts put faulty s a data k s' result)
    (hlen : data.length ≤ 2 ^ 32) :
    (∀ i (hi : i < data.length), i < k → get s' (addressAt a i) = some data[i]) ∧
      ∀ x, (∀ i < k, x ≠ addressAt a i) → get s' x = get s x := by
  cases hhalts with
  | done _ hputs =>
    obtain ⟨hcells, hkept⟩ := hputs.get_eq h hlen
    exact ⟨fun i hi _ => hcells i hi, hkept⟩
  | refused hk _ hputs herror =>
    have htake : (data.take k).length = k := List.length_take_of_le (Nat.le_of_lt hk)
    obtain ⟨hcells, hkept⟩ := hputs.get_eq h (by omega)
    rw [h.of_error herror]
    refine ⟨fun i _ hik => ?_, fun x hx => hkept x fun i hi => hx i (htake ▸ hi)⟩
    rw [hcells i (htake.symm ▸ hik), List.getElem_take]

variable {m : Type → Type} [Monad m] [LawfulMonad m]

theorem exists_halts (h : StoresExcept put get faulty) (data : List UInt8) : ∀ (s : σ) (a : UInt32),
    ∃ k s' result, storeAll (fun s a v => (pure (put s a v) : m (σ × Except ε Unit))) s a data =
        pure (s', result) ∧ Halts put faulty s a data k s' result := by
  induction data with
  | nil =>
    intro s a
    exact ⟨0, s, .ok (), rfl, .done (fun i hi => absurd hi (Nat.not_lt_zero i)) .nil⟩
  | cons v rest ih =>
    intro s a
    by_cases ha : a ∈ faulty s
    · obtain ⟨s', e, hput, -⟩ := h.refuse s a v ha
      have hpos : 0 < (v :: rest).length := Nat.zero_lt_succ _
      refine ⟨0, s', .error e, by simp only [storeAll, pure_bind, hput], ?_⟩
      refine .refused hpos ⟨⟨hpos, ?_⟩, fun i _ => Nat.zero_le i⟩ .nil ?_
      · rwa [addressAt_zero]
      · rw [addressAt_zero]
        exact hput
    · obtain ⟨s₁, hput, -, hfaulty⟩ := h.store s a v ha
      obtain ⟨k, s', result, hrest, hhalts⟩ := ih s₁ (a + 1)
      exact ⟨k + 1, s', result, by simp only [storeAll, pure_bind, hput, hrest],
        hhalts.cons hput ha hfaulty⟩

/-- **A run of stores stops at the first address that fails.** In any memory that fails by the
address alone, and wherever the run starts: all bytes before that address are in their cells and all
other cells are as they were; the answer is the error there, and nothing after it is tried. Without
such an address all bytes are stored. Addresses go on at 0 after the last one, but those of a write
that a writer admits are in a row. -/
theorem storeAll_stops (h : StoresExcept put get faulty) (s : σ) (a : UInt32) (data : List UInt8)
    (hlen : data.length ≤ 2 ^ 32) :
    (∃ k s' result, storeAll (fun s a v => (pure (put s a v) : m (σ × Except ε Unit))) s a data =
        pure (s', result) ∧ Halts put faulty s a data k s' result ∧
      (result = .ok () ↔ ∀ i < data.length, addressAt a i ∉ faulty s) ∧
      (∀ i (hi : i < data.length), i < k → get s' (addressAt a i) = some data[i]) ∧
      ∀ x, (∀ i < k, x ≠ addressAt a i) → get s' x = get s x) ∧
    (a.toNat + data.length ≤ 2 ^ 32 - 1 →
      ∀ i ≤ data.length, (addressAt a i).toNat = a.toNat + i) ∧
    ∀ w : Writer, w.Admits a data.length → a.toNat + data.length ≤ 2 ^ 32 - 1 := by
  refine ⟨?_, toNat_addressAt_of_le, fun _ hadmits => hadmits.end_le⟩
  obtain ⟨k, s', result, hrun, hhalts⟩ := exists_halts (m := m) h data s a
  obtain ⟨hcells, hkept⟩ := hhalts.get_eq h hlen
  exact ⟨k, s', result, hrun, hhalts, hhalts.ok_iff, hcells, hkept⟩

end Stores

namespace SparseMemory

theorem storesExcept : StoresExcept put get? fun s => {a | a ∈ s.faulty} where
  store := by
    intro s a v ha
    refine ⟨{ s with cells := insert a v s.cells }, if_neg ha, ?_, rfl⟩
    funext x
    rw [get?, lookup_insert, Function.update_apply]
    rfl
  refuse := by
    intro s a v ha
    exact ⟨s, .hardwareFault, if_pos ha, rfl, rfl⟩

end SparseMemory

/-- Five bytes from the last address but one on, and address 1 fails: three are stored, the third at
address 0, and the store to address 2 is not tried. -/
theorem storeAll_stops_wrapping :
    ∃ s', SparseMemory.write { faulty := [1] } 0xFFFFFFFE [7, 8, 9, 10, 11] =
        (s', .error .hardwareFault) ∧
      s'.get? 0xFFFFFFFF = some 8 ∧ s'.get? 0 = some 9 ∧ s'.get? 2 = none := by
  obtain ⟨⟨k, s', result, hrun, hhalts, -, hcells, hkept⟩, -⟩ := storeAll_stops (m := Id)
    SparseMemory.storesExcept { faulty := [1] } 0xFFFFFFFE [7, 8, 9, 10, 11] (by decide)
  have hresult : (SparseMemory.write { faulty := [1] } 0xFFFFFFFE [7, 8, 9, 10, 11]).2 =
      .error .hardwareFault := by rfl
  have hwrite : SparseMemory.write { faulty := [1] } 0xFFFFFFFE [7, 8, 9, 10, 11] = (s', result) :=
    hrun
  rw [hwrite] at hresult
  cases hresult
  have hk : k = 3 := by
    have honly : ∀ i < 5, addressAt 0xFFFFFFFE i ∈ [(1 : UInt32)] → i = 3 := by decide
    cases hhalts with
    | refused hk hleast _ _ => exact honly k hk hleast.1.2
  subst hk
  refine ⟨s', hwrite, hcells 1 (by decide) (by decide), hcells 2 (by decide) (by decide),
    hkept 2 (by decide)⟩

end CodeGuard
