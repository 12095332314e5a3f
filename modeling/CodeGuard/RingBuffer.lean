/-!
# CodeGuard.RingBuffer

A buffer that keeps the newest `n` elements. It grows up to `n` places; from then on each new
element takes the place of the oldest one.

* `RingBuffer.toList`: the elements kept, oldest first.
* `RingBuffer.Cursor`: reads them one by one.
* `toList_push`: what is kept after a push are the last `n` of the elements kept before and the
  new one.
-/

namespace CodeGuard

structure RingBuffer (α : Type) (n : Nat) where
  items : Array α
  /-- The place of the oldest element. -/
  oldest : Nat
  size_le : items.size ≤ n
  oldest_lt : oldest = 0 ∨ oldest < n
  /-- Nothing is replaced before all places are taken. -/
  size_eq : oldest ≠ 0 → items.size = n

namespace RingBuffer

variable {α : Type} {n : Nat}

def empty : RingBuffer α n where
  items := #[]
  oldest := 0
  size_le := Nat.zero_le n
  oldest_lt := .inl rfl
  size_eq := fun h => absurd rfl h

def size (r : RingBuffer α n) : Nat :=
  r.items.size

def isFull (r : RingBuffer α n) : Bool :=
  r.size == n

def push (r : RingBuffer α n) (x : α) : RingBuffer α n :=
  if h : r.items.size < n then
    { items := r.items.push x
      oldest := r.oldest
      size_le := by rw [Array.size_push]; exact h
      oldest_lt := r.oldest_lt
      size_eq := fun h' => absurd (r.size_eq h') (Nat.ne_of_lt h) }
  else
    { items := r.items.setIfInBounds r.oldest x
      oldest := if r.oldest + 1 < n then r.oldest + 1 else 0
      size_le := by rw [Array.size_setIfInBounds]; exact r.size_le
      oldest_lt := by split <;> omega
      size_eq := by
        have := r.size_le
        rw [Array.size_setIfInBounds]
        omega }

def toList (r : RingBuffer α n) : List α :=
  r.items.toList.drop r.oldest ++ r.items.toList.take r.oldest

def latest? (r : RingBuffer α n) : Option α :=
  if r.oldest = 0 then r.items.back? else r.items[r.oldest - 1]?

/-- A reader on its way from the oldest element to the newest. -/
structure Cursor (α : Type) (n : Nat) where
  ring : RingBuffer α n
  /-- Elements that were read. -/
  passed : Nat
  remaining : Nat

def cursor (r : RingBuffer α n) : Cursor α n :=
  ⟨r, 0, r.size⟩

namespace Cursor

/-- Reads one element and moves on. At an empty place there is nothing to read, as at the end. -/
def next (c : Cursor α n) : Option α × Cursor α n :=
  if c.remaining = 0 then
    (none, c)
  else
    (c.ring.items[(c.ring.oldest + c.passed) % n]?,
      { c with passed := c.passed + 1, remaining := c.remaining - 1 })

/-- How many elements are still promised. -/
def sizeHint (c : Cursor α n) : Nat :=
  c.remaining

end Cursor

@[simp] theorem toList_empty : (empty : RingBuffer α n).toList = [] := rfl

@[simp] theorem length_toList (r : RingBuffer α n) : r.toList.length = r.size := by
  have h := r.oldest_lt
  have hs := r.size_eq
  simp only [toList, size, List.length_append, List.length_drop, List.length_take,
    Array.length_toList]
  omega

theorem size_le_capacity (r : RingBuffer α n) : r.size ≤ n :=
  r.size_le

theorem getElem?_toList (r : RingBuffer α n) {k : Nat} (hk : k < r.size) :
    r.toList[k]? = r.items[(r.oldest + k) % n]? := by
  have hsize := r.size_le
  have hk : k < r.items.size := hk
  by_cases hend : k < r.items.size - r.oldest
  · rw [toList, List.getElem?_append_left (by simpa using hend), List.getElem?_drop,
      Nat.mod_eq_of_lt (by omega), Array.getElem?_toList]
  · -- past the last place, which is only so when all places are taken
    have hn := r.size_eq (by omega)
    have hlt := r.oldest_lt
    rw [toList, List.getElem?_append_right (by simpa using Nat.not_lt.mp hend), List.length_drop,
      Array.length_toList, List.getElem?_take_of_lt (by omega), Array.getElem?_toList,
      Nat.mod_eq_sub_mod (by omega), Nat.mod_eq_of_lt (by omega)]
    congr 1
    omega

theorem toList_push (r : RingBuffer α n) (x : α) :
    (r.push x).toList = (r.toList ++ [x]).drop (r.size + 1 - n) := by
  by_cases h : r.items.size < n
  · have ho : r.oldest = 0 := Decidable.byContradiction fun ho => by
      have := r.size_eq ho
      omega
    simp [push, h, toList, ho, size, show r.items.size + 1 - n = 0 by omega]
  · have hn : r.items.size = n := by
      have := r.size_le
      omega
    have hsz : r.size + 1 - n = 1 := by
      simp only [size]
      omega
    by_cases h0 : n = 0
    · have : r.items = #[] := Array.eq_empty_of_size_eq_zero (by omega)
      have ho : r.oldest = 0 := by
        have := r.oldest_lt
        omega
      simp [push, toList, this, ho, h0]
    · have hlt : r.oldest < r.items.toList.length := by
        have := r.oldest_lt
        simp only [Array.length_toList]
        omega
      have hlen : r.items.toList.length = n := by simpa using hn
      have key : (r.items.toList.set r.oldest x).drop (r.oldest + 1) ++
          (r.items.toList.set r.oldest x).take (r.oldest + 1) =
          (r.toList ++ [x]).drop 1 := by
        rw [toList, List.drop_eq_getElem_cons hlt, List.drop_set_of_lt (by omega),
          List.take_add_one, List.take_set_of_le (by omega), List.getElem?_set_self hlt]
        simp
      rw [hsz, ← key]
      by_cases hw : r.oldest + 1 < n
      · simp [push, h, toList, hw]
      · have hl : r.oldest + 1 = (r.items.toList.set r.oldest x).length := by
          rw [List.length_set]
          omega
        rw [hl, List.drop_length, List.take_length]
        simp [push, h, toList, hw]

theorem latest?_eq_getLast? (r : RingBuffer α n) : r.latest? = r.toList.getLast? := by
  by_cases h : r.oldest = 0
  · simp [latest?, toList, h, List.getLast?_eq_getElem?, Array.back?]
  · have hn := r.size_eq h
    have hlt := r.oldest_lt
    simp only [latest?, toList, h, if_false]
    rw [List.getLast?_append, List.getLast?_eq_getElem?, List.length_take, Array.length_toList,
      List.getElem?_take]
    simp [show min r.oldest r.items.size = r.oldest by omega, show r.oldest - 1 < r.oldest by omega,
      show r.oldest - 1 < r.items.size by omega]

end RingBuffer
end CodeGuard
