import Mathlib.Data.List.DropRight
import CodeGuard.Log

/-!
# CodeGuard.Proofs.Retention

What a log keeps.

* `RingBuffer.Cursor.Yields`: what a cursor reads, call after call. `RingBuffer.cursor_yields`: all
  that is kept, with a true promise at every place.
* `Log.Extends`: a log after some entries came in. `Log.Extends.trans`: after more of them.
* `Log.run_retains`: after any calls on a fresh log it keeps the newest of the entries that were
  admitted when they came, and counts the others.
-/

namespace CodeGuard

/-! ## Reading -/

namespace RingBuffer

variable {α : Type} {n : Nat}

/-- Read one by one, the elements lead from the one cursor to the other. -/
inductive Cursor.Yields : Cursor α n → List α → Cursor α n → Prop where
  | nil {c : Cursor α n} : Yields c [] c
  | cons {c c₁ c' : Cursor α n} {x : α} {xs : List α} :
      c.next = (some x, c₁) → Yields c₁ xs c' → Yields c (x :: xs) c'

/-- The cursor after `k` elements. -/
def cursorAt (r : RingBuffer α n) (k : Nat) : Cursor α n :=
  ⟨r, k, r.size - k⟩

theorem next_cursorAt (r : RingBuffer α n) {k : Nat} (hk : k < r.size) :
    (r.cursorAt k).next = (r.toList[k]?, r.cursorAt (k + 1)) := by
  have hmore : r.size - k ≠ 0 := by omega
  simp only [cursorAt, Cursor.next, if_neg hmore, r.getElem?_toList hk, Nat.sub_sub]

theorem next_cursorAt_end (r : RingBuffer α n) {k : Nat} (hk : r.size ≤ k) :
    (r.cursorAt k).next.1 = none := by
  have hdone : r.size - k = 0 := by omega
  rw [cursorAt, Cursor.next, if_pos hdone]

theorem cursorAt_yields (r : RingBuffer α n) (m : Nat) : ∀ {k : Nat}, k + m ≤ r.size →
    (r.cursorAt k).Yields ((r.toList.drop k).take m) (r.cursorAt (k + m)) := by
  induction m with
  | zero =>
    intro k _
    exact .nil
  | succ m ih =>
    intro k hk
    have hlt : k < r.toList.length := by
      rw [length_toList]
      omega
    rw [List.drop_eq_getElem_cons hlt, List.take_succ_cons, Nat.add_comm m, ← Nat.add_assoc]
    refine .cons ?_ (ih (by omega))
    rw [r.next_cursorAt (by omega), List.getElem?_eq_getElem hlt]

/-- A cursor reads all that is kept and then nothing. On its way it promises what it will still
read. -/
theorem cursor_yields (r : RingBuffer α n) (k : Nat) :
    ∃ c c', r.cursor.Yields (r.toList.take k) c ∧ c.sizeHint = (r.toList.drop k).length ∧
      c.Yields (r.toList.drop k) c' ∧ c'.next.1 = none := by
  have hstart : r.cursor = r.cursorAt 0 := rfl
  by_cases hk : k ≤ r.size
  · have htake := r.cursorAt_yields k (k := 0) (by omega)
    have hdrop := r.cursorAt_yields (r.size - k) (k := k) (by omega)
    rw [List.drop_zero, Nat.zero_add] at htake
    rw [List.take_of_length_le (by simp), Nat.add_sub_cancel' hk] at hdrop
    refine ⟨_, _, hstart ▸ htake, ?_, hdrop, r.next_cursorAt_end (Nat.le_refl _)⟩
    rw [List.length_drop, length_toList]
    rfl
  · -- there are fewer than `k` elements
    have hlen : r.toList.length ≤ k := by
      rw [length_toList]
      omega
    have hall := r.cursorAt_yields r.size (k := 0) (by omega)
    rw [List.drop_zero, Nat.zero_add, List.take_of_length_le (by simp)] at hall
    rw [List.take_of_length_le hlen, List.drop_of_length_le hlen]
    refine ⟨_, _, hstart ▸ hall, ?_, .nil, r.next_cursorAt_end (Nat.le_refl _)⟩
    show r.size - r.size = 0
    omega

end RingBuffer

namespace Log

/-! ## Taking entries in -/

theorem rtake_rtake_append {α : Type} (n : Nat) (xs ys : List α) :
    (xs.rtake n ++ ys).rtake n = (xs ++ ys).rtake n := by
  have hdrop : xs.rtake n ++ ys = (xs ++ ys).drop (xs.length - n) :=
    (List.drop_append_of_le_length (by omega)).symm
  rw [List.rtake, hdrop, List.drop_drop, List.rtake, List.length_drop, List.length_append]
  congr 1
  omega

theorem length_rtake {α : Type} (n : Nat) (xs : List α) : (xs.rtake n).length = min xs.length n := by
  rw [List.rtake, List.length_drop]
  omega

/-- `l'` is `l` after `es` came in: the newest are kept, the others are counted. -/
structure Extends (l l' : Log) (es : List Entry) : Prop where
  entries : l'.entries = (l.entries ++ es).rtake capacity
  overwritten : l'.overwritten.toNat =
    min (l.overwritten.toNat + ((l.entries ++ es).length - capacity)) 0xFFFFFFFF

variable {l l₁ l' : Log} {es es' : List Entry}

theorem length_entries_le (l : Log) : l.entries.length ≤ capacity := by
  rw [length_entries]
  exact l.ring.size_le_capacity

theorem toNat_countUp (n : UInt32) : (countUp n).toNat = min (n.toNat + 1) 0xFFFFFFFF := by
  have hn := n.toNat_lt
  rw [countUp]
  split
  · rename_i h
    rw [h]
    rfl
  · rename_i h
    have hne : n.toNat ≠ 0xFFFFFFFF := fun he => h (UInt32.toNat_inj.mp he)
    rw [UInt32.toNat_add, UInt32.toNat_one, Nat.mod_eq_of_lt (by omega)]
    omega

namespace Extends

theorem refl (l : Log) : l.Extends l [] where
  entries := by
    have hlen : l.entries.length - capacity = 0 := Nat.sub_eq_zero_of_le l.length_entries_le
    rw [List.append_nil, List.rtake, hlen, List.drop_zero]
  overwritten := by
    have hlen := l.length_entries_le
    have hmax := l.overwritten.toNat_lt
    rw [List.append_nil]
    omega

theorem trans (h : l.Extends l₁ es) (h' : l₁.Extends l' es') : l.Extends l' (es ++ es') where
  entries := by rw [h'.entries, h.entries, rtake_rtake_append, List.append_assoc]
  overwritten := by
    have hlen : l₁.entries.length = min (l.entries ++ es).length capacity := by
      rw [h.entries, length_rtake]
    rw [h'.overwritten, h.overwritten]
    simp only [List.length_append] at hlen ⊢
    omega

end Extends

theorem extends_write {e : Entry} (hadm : l.admits e.level = true) : l.Extends (l.write e) [e] where
  entries := by
    rw [entries_write, if_pos hadm, List.rtake, List.length_append, List.length_singleton,
      length_entries]
  overwritten := by
    have hlen := l.length_entries_le
    have hmax := l.overwritten.toNat_lt
    rw [length_entries] at hlen
    rw [List.length_append, List.length_singleton, length_entries]
    simp only [write, if_pos hadm]
    split
    · rename_i hfull
      have hsize : l.ring.size = capacity := by simpa [RingBuffer.isFull] using hfull
      rw [toNat_countUp, length, hsize]
      omega
    · rename_i hroom
      have hsize : l.ring.size ≠ capacity := by simpa [RingBuffer.isFull] using hroom
      rw [length] at hlen ⊢
      omega

theorem write_of_not_admits {e : Entry} (hadm : l.admits e.level = false) : l.write e = l := by
  rw [write, if_neg (by simp [hadm])]

@[simp] theorem threshold_write (l : Log) (e : Entry) : (l.write e).threshold = l.threshold := by
  rw [write]
  split <;> rfl

@[simp] theorem admits_write (l : Log) (e : Entry) (level : Level) :
    (l.write e).admits level = l.admits level := by
  rw [admits, admits, threshold_write]

/-! ## Runs -/

inductive Op where
  | setThreshold (level : Level)
  | write (e : Entry)
  | log (level : Level) (timestamp : UInt32) (component : String) (parts : List String)

def Op.perform (l : Log) : Op → Log
  | .setThreshold level => l.setThreshold level
  | .write e => l.write e
  | .log level timestamp component parts => l.log level timestamp component parts

def run (l : Log) (ops : List Op) : Log :=
  ops.foldl Op.perform l

/-- The entries that are admitted, each by the threshold of its time. -/
def admitted : (threshold : Level) → List Op → List Entry
  | _, [] => []
  | _, .setThreshold level :: rest => admitted level rest
  | threshold, .write e :: rest =>
    if e.level.rank ≤ threshold.rank then e :: admitted threshold rest else admitted threshold rest
  | threshold, .log level timestamp component parts :: rest =>
    if level.rank ≤ threshold.rank then
      ⟨level, timestamp, component, clip parts⟩ :: admitted threshold rest
    else
      admitted threshold rest

theorem extends_run (ops : List Op) : ∀ l : Log, l.Extends (run l ops) (admitted l.threshold ops) := by
  induction ops with
  | nil => exact .refl
  | cons op rest ih =>
    -- whichever way an entry comes in, it is written
    have hwrite : ∀ (l : Log) (e : Entry), l.Extends (run (l.write e) rest)
        (if e.level.rank ≤ l.threshold.rank then e :: admitted l.threshold rest
          else admitted l.threshold rest) := by
      intro l e
      have hrest := ih (l.write e)
      rw [threshold_write] at hrest
      by_cases hadm : e.level.rank ≤ l.threshold.rank
      · rw [if_pos hadm]
        exact (extends_write (decide_eq_true hadm)).trans hrest
      · rw [if_neg hadm]
        rwa [write_of_not_admits (decide_eq_false hadm)] at hrest ⊢
    intro l
    cases op with
    | setThreshold level => exact ⟨(ih (l.setThreshold level)).entries, (ih _).overwritten⟩
    | write e => exact hwrite l e
    | log level timestamp component parts => exact hwrite l _

/-! ## What is read from a log -/

/-- All that can be read from a log that has the newest of `es`. -/
structure Retains (l : Log) (es : List Entry) : Prop where
  entries : l.entries = es.rtake 32
  length : l.length = min es.length 32
  latest : l.latest? = es.getLast?
  overwritten : l.overwritten.toNat = min (es.length - 32) 0xFFFFFFFF
  countAt : ∀ level, l.countAt level = (es.rtake 32).countP fun e => e.level = level
  cursor : ∀ k, ∃ c c', l.cursor.Yields ((es.rtake 32).take k) c ∧
    c.sizeHint = ((es.rtake 32).drop k).length ∧ c.Yields ((es.rtake 32).drop k) c' ∧
    c'.next.1 = none

theorem getLast?_rtake {α : Type} {n : Nat} (hn : n ≠ 0) (xs : List α) :
    (xs.rtake n).getLast? = xs.getLast? := by
  rw [List.rtake, List.getLast?_drop]
  split
  · have hnil : xs = [] := List.eq_nil_of_length_eq_zero (by omega)
    rw [hnil, List.getLast?_nil]
  · rfl

theorem Extends.retains (h : Extends {} l es) : l.Retains es := by
  have hentries : l.entries = es.rtake 32 := h.entries
  exact {
    entries := hentries
    length := by rw [← length_entries, hentries, length_rtake]
    latest := by
      rw [latest?, RingBuffer.latest?_eq_getLast?]
      show l.entries.getLast? = _
      rw [hentries, getLast?_rtake (by decide)]
    overwritten := by
      rw [h.overwritten]
      show min (0 + (es.length - 32)) _ = _
      rw [Nat.zero_add]
    countAt := fun level => by rw [countAt, hentries]
    cursor := fun k => by
      rw [← hentries]
      exact l.ring.cursor_yields k }

/-- **A log keeps the newest entries that it admitted.** After any calls on a fresh log, what it has
are the last thirty-two of the entries that were admitted by the threshold of their time, oldest
first; the others are counted, up to the greatest count. Another threshold changes none of it. -/
theorem run_retains (ops : List Op) :
    (run {} ops).Retains (admitted .info ops) ∧
      ∀ level, ((run {} ops).setThreshold level).Retains (admitted .info ops) :=
  have h := (extends_run ops {}).retains
  ⟨h, fun _ => { h with }⟩

end Log
end CodeGuard
