import Mathlib.Data.List.Sort
import CodeGuard.Proofs.Checking

/-!
# CodeGuard.Proofs.Sweeping

What a report says of the sizes that were tried.

* `Sweep.tried`: these sizes. `Sweep.tried_eq_range'`: they come one step after the other.
* `Sweep.Report.Tallies`: the figures of a report after some sizes. `Sweep.Report.Tallies.record`:
  after one more. `Sweep.Report.Tallies.runFrom`: after a run.
* `Sweep.run_counts`: the report of a run from end to end.
-/

namespace CodeGuard
namespace Sweep

variable {maxSlots : Nat} {t : SizeTable}

/-! ## The sizes that are tried -/

/-- The sizes from `start` to `stop` that lie a number of whole steps above `start`, ascending. -/
def tried (start stop step : Nat) : List Nat :=
  (List.range (stop + 1)).filter fun n => start ≤ n ∧ step ∣ n - start

theorem mem_tried {start stop step n : Nat} :
    n ∈ tried start stop step ↔ n ≤ stop ∧ start ≤ n ∧ step ∣ n - start := by
  simp only [tried, List.mem_filter, List.mem_range, Nat.lt_succ_iff, decide_eq_true_eq]

theorem pairwise_tried (start stop step : Nat) : (tried start stop step).Pairwise (· < ·) :=
  List.pairwise_lt_range.filter _

theorem mem_range'_count {start stop step n : Nat} :
    n ∈ List.range' start (count start stop step) step ↔
      n ≤ stop ∧ start ≤ n ∧ step ∣ n - start := by
  rw [List.mem_range', count]
  constructor
  · rintro ⟨i, hi, rfl⟩
    split at hi
    · have hle := Nat.mul_le_of_le_div _ _ _ (Nat.le_of_lt_succ hi)
      rw [Nat.mul_comm] at hle
      exact ⟨by omega, Nat.le_add_right _ _, ⟨i, by omega⟩⟩
    · exact absurd hi (Nat.not_lt_zero i)
  · rintro ⟨hstop, hstart, hdvd⟩
    refine ⟨(n - start) / step, ?_, ?_⟩
    · rw [if_pos (Nat.le_trans hstart hstop)]
      exact Nat.lt_succ_of_le (Nat.div_le_div_right (Nat.sub_le_sub_right hstop start))
    · rw [Nat.mul_div_cancel' hdvd]
      omega

/-- Two ascending lists of the same sizes. -/
theorem tried_eq_range' {start stop step : Nat} (hstep : 0 < step) :
    tried start stop step = List.range' start (count start stop step) step :=
  (pairwise_tried start stop step).eq_of_mem_iff (List.pairwise_lt_range' step hstep) fun _ => by
    rw [mem_tried, mem_range'_count]

theorem length_tried {start stop step : Nat} (hstep : 0 < step) :
    (tried start stop step).length = count start stop step := by
  rw [tried_eq_range' hstep, List.length_range']

/-- Only the run over all sizes of 32 bits tries more of them than 32 bits can count. -/
theorem count_lt_iff (start stop step : UInt32) :
    count start.toNat stop.toNat (max step.toNat 1) < UInt32.size ↔
      ¬ (start = 0 ∧ stop = 0xFFFFFFFF ∧ step ≤ 1) := by
  have hstop := stop.toNat_lt_size
  have hsize : UInt32.size = 0x100000000 := rfl
  have hzero : start = 0 ↔ start.toNat = 0 := UInt32.toNat_inj.symm
  have htop : stop = 0xFFFFFFFF ↔ stop.toNat = 0xFFFFFFFF := UInt32.toNat_inj.symm
  have hone : step ≤ 1 ↔ step.toNat ≤ 1 := UInt32.le_iff_toNat_le
  rw [hzero, htop, hone, count]
  split
  · rename_i hle
    by_cases hstep : step.toNat ≤ 1
    · rw [Nat.max_eq_right hstep, Nat.div_one]
      omega
    · -- every second size at most
      have hhalf := Nat.div_le_div_left (a := stop.toNat - start.toNat)
        (show 2 ≤ max step.toNat 1 by omega) (by decide)
      omega
  · omega

/-! ## The figures of a report -/

/-- The first `k` of a list that grows: a new entry is kept while there is room. -/
theorem take_concat {α : Type} (xs : List α) (x : α) (k : Nat) :
    (xs ++ [x]).take k = if (xs.take k).length < k then xs.take k ++ [x] else xs.take k := by
  rw [List.length_take]
  split
  · rename_i hroom
    rw [List.take_of_length_le (by rw [List.length_append, List.length_singleton]; omega),
      List.take_of_length_le (by omega)]
  · rename_i hfull
    exact List.take_append_of_le_length (by omega)

namespace Report

/-- What the figures are after `sizes` of which those pass that `p` tells. -/
structure Tallies (r : Report) (p : Nat → Bool) (sizes : List Nat) : Prop where
  tested : r.tested = sizes.length
  succeeded : r.succeeded = sizes.countP p
  failures : r.failures = sizes.countP fun n => !p n
  failedSizes : r.failedSizes = (sizes.filter fun n => !p n).take 50

variable {r : Report} {p : Nat → Bool} {sizes : List Nat}

theorem tallies_nil (p : Nat → Bool) : Tallies {} p [] :=
  ⟨rfl, rfl, rfl, rfl⟩

theorem Tallies.record (h : r.Tallies p sizes) (size : Nat) :
    (r.record size (p size)).Tallies p (sizes ++ [size]) := by
  cases hp : p size with
  | true =>
    exact {
      tested := by simp [Report.record, h.tested]
      succeeded := by simp [Report.record, h.succeeded, hp]
      failures := by simp [Report.record, h.failures, hp]
      failedSizes := by simp [Report.record, h.failedSizes, hp] }
  | false =>
    exact {
      tested := by simp [Report.record, h.tested]
      succeeded := by simp [Report.record, h.succeeded, hp]
      failures := by simp [Report.record, h.failures, hp]
      failedSizes := by
        have hnew : [size].filter (fun n => !p n) = [size] := by simp [hp]
        rw [List.filter_append, hnew, take_concat, ← h.failedSizes]
        rfl }

theorem Tallies.runFrom (step : Nat) : ∀ (n size : Nat) {r : Report} {sizes : List Nat},
    r.Tallies (passes maxSlots t) sizes →
      (runFrom step maxSlots t n size r).Tallies (passes maxSlots t)
        (sizes ++ List.range' size n step) := by
  intro n
  induction n with
  | zero =>
    intro size r sizes h
    rw [List.range'_zero, List.append_nil]
    exact h
  | succ n ih =>
    intro size r sizes h
    have hrest := ih (size + step) (h.record size)
    rw [List.append_assoc, List.singleton_append] at hrest
    exact hrest

/-- All that a report says of the sizes that were tried. -/
structure Counts (r : Report) (maxSlots : Nat) (t : SizeTable) (sizes : List Nat) : Prop where
  tested : r.tested = sizes.length
  succeeded : r.succeeded = sizes.countP fun n => (Layout.cover n maxSlots t).isOk
  failures : r.failures = r.tested - r.succeeded
  failedSizes : r.failedSizes =
    (sizes.filter fun n => !(Layout.cover n maxSlots t).isOk).take (min 50 r.failures)
  ascending : r.failedSizes.Pairwise (· < ·)
  allPassed_iff : r.allPassed = true ↔ ∀ n ∈ sizes, ∃ l, Layout.cover n maxSlots t = .ok l

theorem isOk_iff {ε α : Type} {r : Except ε α} : r.isOk = true ↔ ∃ a, r = .ok a := by
  cases r with
  | error e => simp [Except.isOk, Except.toBool]
  | ok a => simp [Except.isOk, Except.toBool]

theorem Tallies.counts (h : r.Tallies (passes maxSlots t) sizes) (hsizes : sizes.Pairwise (· < ·)) :
    r.Counts maxSlots t sizes := by
  have hpasses : passes maxSlots t = fun n => (Layout.cover n maxSlots t).isOk :=
    funext (passes_eq maxSlots t)
  rw [hpasses] at h
  have hlen := sizes.length_eq_countP_add_countP fun n => (Layout.cover n maxSlots t).isOk
  exact {
    tested := h.tested
    succeeded := h.succeeded
    failures := by
      have hnot := h.failures
      rw [h.tested, h.succeeded]
      simp only [Bool.not_eq_true, Bool.decide_eq_false] at hlen
      omega
    failedSizes := by
      rw [h.failedSizes, List.take_eq_take_min, h.failures, List.countP_eq_length_filter]
    ascending := by
      rw [h.failedSizes]
      exact (hsizes.filter _).sublist (List.take_sublist _ _)
    allPassed_iff := by
      rw [allPassed, beq_iff_eq, h.failures, List.countP_eq_zero]
      simp only [Bool.not_eq_true', Bool.not_eq_false, isOk_iff] }

end Report

/-- **A report counts exactly.** It tells how many sizes were tried, how many of them have a layout
and how many have none, and names the first fifty of those in ascending order. Nothing that has a
layout counts as a failure. No count leaves 32 bits unless every size of 32 bits is tried. -/
theorem run_counts (start stop step : UInt32) (maxSlots : Nat) (t : SizeTable) :
    (run start.toNat stop.toNat step.toNat maxSlots t).Counts maxSlots t
        (tried start.toNat stop.toNat (max step.toNat 1)) ∧
      ((run start.toNat stop.toNat step.toNat maxSlots t).tested < UInt32.size ↔
        ¬ (start = 0 ∧ stop = 0xFFFFFFFF ∧ step ≤ 1)) := by
  have hstep : 0 < max step.toNat 1 := Nat.lt_of_lt_of_le Nat.one_pos (Nat.le_max_right _ _)
  have htallies := (Report.tallies_nil (passes maxSlots t)).runFrom (max step.toNat 1)
    (count start.toNat stop.toNat (max step.toNat 1)) start.toNat
  rw [List.nil_append, ← tried_eq_range' hstep] at htallies
  refine ⟨htallies.counts (pairwise_tried _ _ _), ?_⟩
  rw [← count_lt_iff, ← length_tried hstep, ← htallies.tested, run]

end Sweep
end CodeGuard
