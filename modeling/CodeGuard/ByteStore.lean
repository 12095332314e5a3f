import CodeGuard.Error

/-!
# CodeGuard.ByteStore

Storing a run of bytes through a store of one byte, and a sparse memory to store them in.

* `storeAll`: byte after byte at consecutive addresses, up to the first that fails.
* `SparseMemory`: the cells written so far, and the addresses that always fail.
-/

namespace CodeGuard

/-- Stores `data` from `a` on. The address after the last one is 0. Nothing is tried after a
failure. -/
def storeAll {m : Type → Type} [Monad m] {σ ε : Type}
    (put : σ → UInt32 → UInt8 → m (σ × Except ε Unit)) (s : σ) (a : UInt32) :
    List UInt8 → m (σ × Except ε Unit)
  | [] => pure (s, .ok ())
  | v :: rest => do
    match ← put s a v with
    | (s', .error e) => pure (s', .error e)
    | (s', .ok ()) => storeAll put s' (a + 1) rest

structure SparseMemory where
  /-- The cells that were written, by ascending address. -/
  cells : List (UInt32 × UInt8) := []
  /-- Addresses where a store fails. -/
  faulty : List UInt32 := []

namespace SparseMemory

/-- Replaces the cell at `a`, or puts it in its place among the others. -/
def insert (a : UInt32) (v : UInt8) : List (UInt32 × UInt8) → List (UInt32 × UInt8)
  | [] => [(a, v)]
  | (b, w) :: rest =>
    if a < b then (a, v) :: (b, w) :: rest
    else if a = b then (a, v) :: rest
    else (b, w) :: insert a v rest

def get? (s : SparseMemory) (a : UInt32) : Option UInt8 :=
  s.cells.lookup a

def put (s : SparseMemory) (a : UInt32) (v : UInt8) : SparseMemory × Except BusError Unit :=
  if a ∈ s.faulty then (s, .error .hardwareFault)
  else ({ s with cells := insert a v s.cells }, .ok ())

@[simp] theorem lookup_insert (a b : UInt32) (v : UInt8) (cells : List (UInt32 × UInt8)) :
    (insert a v cells).lookup b = if b = a then some v else cells.lookup b := by
  by_cases h : b = a
  · subst h
    induction cells with
    | nil => simp [insert]
    | cons cell rest ih =>
      obtain ⟨x, w⟩ := cell
      simp only [insert]
      split
      · simp
      · split
        · simp
        · rename_i hx
          simp [List.lookup_cons, beq_false_of_ne hx, ih]
  · have hb : (b == a) = false := beq_false_of_ne h
    rw [if_neg h]
    induction cells with
    | nil => simp [insert, List.lookup_cons, hb]
    | cons cell rest ih =>
      obtain ⟨x, w⟩ := cell
      simp only [insert]
      split
      · simp [List.lookup_cons, hb]
      · split
        · rename_i hx
          subst hx
          simp [List.lookup_cons, hb]
        · simp only [List.lookup_cons, ih]

def write (s : SparseMemory) (a : UInt32) (data : List UInt8) :
    SparseMemory × Except BusError Unit :=
  Id.run (storeAll (fun s a v => pure (s.put a v)) s a data)

end SparseMemory
end CodeGuard
