import CodeGuard.Proofs.Stages

/-!
# CodeGuard.Proofs.Words

The cut of an image with numbers that are words. `Words.add` and the like are the operations on
numbers below 2³²; one that has no such result traps, as does a count that is no byte, or a
seventeenth block. `Words.cover` is the cut with every operation replaced by its like.

* `Words.fitExactly?_eq`, `Words.bestFit?_eq`: a block is chosen without a trap, and it is the same.
* `Words.coverFrom_eq`: so is every block of an image that ends below 2³².
-/

namespace CodeGuard

/-- Why an operation has no result. -/
inductive Trap where
  | divisionByZero
  | overflow
  | underflow
  | truncation
  | full
  deriving DecidableEq

namespace Words

/-! ## Operations -/

/-- The sum, if it is a word. -/
def add (x y : Nat) : Except Trap Nat :=
  if x + y < UInt32.size then .ok (x + y) else .error .overflow

def sub (x y : Nat) : Except Trap Nat :=
  if y ≤ x then .ok (x - y) else .error .underflow

def mul (x y : Nat) : Except Trap Nat :=
  if x * y < UInt32.size then .ok (x * y) else .error .overflow

def div (x y : Nat) : Except Trap Nat :=
  if y = 0 then .error .divisionByZero else .ok (x / y)

def rem (x y : Nat) : Except Trap Nat :=
  if y = 0 then .error .divisionByZero else .ok (x % y)

def byte (x : Nat) : Except Trap UInt8 :=
  if x < UInt8.size then .ok (UInt8.ofNat x) else .error .truncation

/-- A list has room for as many entries as a unit has regions. -/
def push {α : Type} (xs : List α) (x : α) : Except Trap (List α) :=
  if xs.length < Limits.maxRegions then .ok (xs ++ [x]) else .error .full

variable {x y : Nat}

@[simp] theorem ok_bind {α β : Type} (x : α) (f : α → Except Trap β) :
    (Except.ok x >>= f) = f x := rfl

theorem add_eq (h : x + y < UInt32.size) : add x y = .ok (x + y) := if_pos h

theorem sub_eq (h : y ≤ x) : sub x y = .ok (x - y) := if_pos h

theorem mul_eq (h : x * y < UInt32.size) : mul x y = .ok (x * y) := if_pos h

theorem div_eq (h : 0 < y) : div x y = .ok (x / y) := if_neg (Nat.ne_of_gt h)

theorem rem_eq (h : 0 < y) : rem x y = .ok (x % y) := if_neg (Nat.ne_of_gt h)

theorem byte_eq (h : x < UInt8.size) : byte x = .ok (UInt8.ofNat x) := if_pos h

theorem push_eq {α : Type} {xs : List α} (h : xs.length < Limits.maxRegions) (x : α) :
    push xs x = .ok (xs ++ [x]) := if_pos h

example : add 0xFFFFFFFF 1 = .error .overflow := by decide

/-! ## The choice of a block -/

def alignedAt (address : Nat) : List Nat → Except Trap (List Nat)
  | [] => .ok []
  | size :: rest => do
    let offset ← rem address size
    let aligned ← alignedAt address rest
    .ok (if offset = 0 then size :: aligned else aligned)

def fitExactly? (t : SizeTable) (address remaining size : Nat) : Except Trap (Option Block) :=
  if size = remaining then
    .ok (some (.whole address size))
  else do
    let subBlock ← div size t.subdivisions
    let subBlocks ← div remaining subBlock
    if 1 ≤ subBlocks ∧ subBlocks ≤ t.subdivisions then
      let filled ← mul subBlocks subBlock
      if filled = remaining then
        let eighthsPerSubBlock ← div Limits.subregions t.subdivisions
        let eighths ← byte (← mul subBlocks eighthsPerSubBlock)
        .ok (some ⟨address, size, eighths.toNat⟩)
      else
        .ok none
    else
      .ok none

def firstFit? (t : SizeTable) (address remaining : Nat) : List Nat → Except Trap (Option Block)
  | [] => .ok none
  | size :: rest => do
    match ← fitExactly? t address remaining size with
    | some b => .ok (some b)
    | none => firstFit? t address remaining rest

def exactFit? (t : SizeTable) (address remaining : Nat) : Except Trap (Option Block) := do
  let aligned ← alignedAt address t.sizes
  firstFit? t address remaining aligned

/-- The size that leaves the least of the `remaining` bytes. -/
def closest? (remaining : Nat) : List Nat → Except Trap (Option Nat)
  | [] => .ok none
  | size :: rest => do
    let left ← sub remaining size
    match ← closest? remaining rest with
    | none => .ok (some size)
    | some best =>
      let least ← sub remaining best
      .ok (some (if left < least then size else best))

def bestFit? (t : SizeTable) (address remaining : Nat) : Except Trap (Option Block) := do
  let aligned ← alignedAt address t.sizes
  match aligned.getLast? with
  | none => .ok none
  | some largest =>
    if largest ≤ remaining then
      .ok (some (.whole address largest))
    else
      let size ← closest? remaining (aligned.filter (· ≤ remaining))
      .ok (size.map (.whole address))

def nextBlock? (t : SizeTable) (address remaining : Nat) : Except Trap (Option Block) := do
  match ← exactFit? t address remaining with
  | some b => .ok (some b)
  | none => bestFit? t address remaining

variable {t : SizeTable} {a r n s : Nat} {b : Block}

theorem alignedAt_eq (t : SizeTable) (a : Nat) : alignedAt a t.sizes = .ok (t.alignedAt a) := by
  have hpos : ∀ s ∈ t.sizes, 0 < s := fun s hs => SizeTable.pos_of_mem hs
  unfold SizeTable.alignedAt
  generalize t.sizes = sizes at hpos
  induction sizes with
  | nil => rfl
  | cons s rest ih =>
    obtain ⟨hs, hrest⟩ := List.forall_mem_cons.mp hpos
    rw [alignedAt, rem_eq hs, ih hrest, ok_bind, ok_bind, List.filter_cons]
    simp only [decide_eq_true_eq]

/-- The sub-blocks that are tried together are no larger than their region. -/
theorem fitExactly?_eq (hs : s ∈ t.sizes) :
    fitExactly? t a r s = .ok (t.fitExactly? a r s) := by
  have hd := t.subdivisions_pos
  have hsub := SizeTable.subBlockSize_pos hs
  unfold fitExactly? SizeTable.fitExactly?
  split
  · rfl
  · rw [div_eq hd, ok_bind, ← SizeTable.subBlockSize, div_eq hsub, ok_bind]
    by_cases hk : 1 ≤ r / t.subBlockSize s ∧ r / t.subBlockSize s ≤ t.subdivisions
    · have hfilled : r / t.subBlockSize s * t.subBlockSize s ≤ s := calc
        _ ≤ t.subdivisions * t.subBlockSize s := Nat.mul_le_mul_right _ hk.2
        _ = s := SizeTable.subdivisions_mul_subBlockSize hs
      have heighths : r / t.subBlockSize s * t.eighthsPerSubBlock ≤ 8 := calc
        _ ≤ t.subdivisions * t.eighthsPerSubBlock := Nat.mul_le_mul_right _ hk.2
        _ = 8 := t.subdivisions_mul_eighthsPerSubBlock
      have hword : r / t.subBlockSize s * t.subBlockSize s < UInt32.size :=
        Nat.lt_of_le_of_lt (Nat.le_trans hfilled (SizeTable.le_of_mem hs)) (by decide)
      rw [if_pos hk, mul_eq hword, ok_bind]
      by_cases hfit : r / t.subBlockSize s * t.subBlockSize s = r
      · rw [if_pos hfit, if_pos ⟨hk, hfit⟩, div_eq hd, ok_bind, ← SizeTable.eighthsPerSubBlock,
          mul_eq (Nat.lt_of_le_of_lt heighths (by decide)), ok_bind,
          byte_eq (Nat.lt_of_le_of_lt heighths (by decide)), ok_bind,
          UInt8.toNat_ofNat_of_lt' (Nat.lt_of_le_of_lt heighths (by decide))]
      · rw [if_neg hfit, if_neg fun h => hfit h.2]
    · rw [if_neg hk, if_neg fun h => hk h.1]

theorem firstFit?_eq {sizes : List Nat} (hsizes : ∀ s ∈ sizes, s ∈ t.sizes) :
    firstFit? t a r sizes = .ok (sizes.findSome? (t.fitExactly? a r)) := by
  induction sizes with
  | nil => rfl
  | cons s rest ih =>
    obtain ⟨hs, hrest⟩ := List.forall_mem_cons.mp hsizes
    rw [firstFit?, fitExactly?_eq hs, ok_bind, List.findSome?_cons]
    cases t.fitExactly? a r s with
    | none => exact ih hrest
    | some b => rfl

theorem exactFit?_eq (t : SizeTable) (a r : Nat) : exactFit? t a r = .ok (t.exactFit? a r) := by
  rw [exactFit?, alignedAt_eq, ok_bind]
  exact firstFit?_eq fun s hs => (SizeTable.mem_alignedAt.mp hs).1

theorem closest?_eq {sizes : List Nat} (hle : ∀ s ∈ sizes, s ≤ r) :
    closest? r sizes = .ok (SizeTable.closest? r sizes) := by
  induction sizes with
  | nil => rfl
  | cons s rest ih =>
    obtain ⟨hs, hrest⟩ := List.forall_mem_cons.mp hle
    rw [closest?, sub_eq hs, ok_bind, ih hrest, ok_bind, SizeTable.closest?]
    cases hbest : SizeTable.closest? r rest with
    | none => rfl
    | some best =>
      have hmem : best ∈ rest := SizeTable.mem_of_closest? hbest
      simp only [sub_eq (hrest best hmem), ok_bind]

theorem bestFit?_eq (t : SizeTable) (a r : Nat) : bestFit? t a r = .ok (t.bestFit? a r) := by
  rw [← t.bestFitByCases?_eq, bestFit?, alignedAt_eq, ok_bind, SizeTable.bestFitByCases?]
  cases (t.alignedAt a).getLast? with
  | none => rfl
  | some largest =>
    simp only
    split
    · rfl
    · rw [closest?_eq (by simp), ok_bind]

theorem nextBlock?_eq (t : SizeTable) (a r : Nat) :
    nextBlock? t a r = .ok (t.nextBlock? a r) := by
  rw [nextBlock?, exactFit?_eq, ok_bind, SizeTable.nextBlock?]
  cases t.exactFit? a r with
  | none => exact bestFit?_eq t a r
  | some b => rfl

/-! ## The scan -/

/-- What is used of a region of `size` bytes. -/
def portion (size eighths : Nat) : Except Trap Nat :=
  if eighths = 0 then
    .ok size
  else do
    let eighth ← div size Limits.subregions
    mul eighth eighths

def consumed (b : Block) : Except Trap Nat :=
  portion b.size b.eighths

def finish (b : Block) : Except Trap Nat := do
  let bytes ← consumed b
  add b.base bytes

def coverFrom (t : SizeTable) : (budget : Nat) → (taken : List Block) →
    (address remaining : Nat) → Except Trap (List Block × Nat)
  | 0, taken, _, remaining => .ok (taken, remaining)
  | budget + 1, taken, address, remaining =>
    if remaining = 0 then
      .ok (taken, 0)
    else do
      match ← nextBlock? t address remaining with
      | none => .ok (taken, remaining)
      | some b =>
        let taken ← push taken b
        let bytes ← consumed b
        let address ← add address bytes
        let remaining ← sub remaining bytes
        coverFrom t budget taken address remaining

def cover (total maxSlots : Nat) (t : SizeTable) : Except Trap (Except Shortfall Layout) := do
  let (blocks, left) ← coverFrom t (min maxSlots Limits.maxRegions) [] Limits.codeBase total
  .ok (if left = 0 then .ok ⟨blocks⟩ else .error ⟨left, blocks.length⟩)

theorem portion_eq {size eighths : Nat}
    (h : (if eighths = 0 then size else size / Limits.subregions * eighths) < UInt32.size) :
    portion size eighths =
      .ok (if eighths = 0 then size else size / Limits.subregions * eighths) := by
  unfold portion
  split at h
  · rename_i h0
    rw [if_pos h0, if_pos h0]
  · rename_i h0
    rw [if_neg h0, if_neg h0, div_eq (by decide), ok_bind, mul_eq h]

theorem consumed_eq (h : b.consumed < UInt32.size) : consumed b = .ok b.consumed :=
  portion_eq h

theorem finish_eq (h : b.finish < UInt32.size) : finish b = .ok b.finish := by
  unfold Block.finish at h ⊢
  rw [finish, consumed_eq (by omega), ok_bind, add_eq h]

/-- Address and rest add up to the end of the image, so no address on the way is past it. -/
theorem coverFrom_eq : ∀ {n a r : Nat} {taken : List Block}, a + r < UInt32.size →
    taken.length + n ≤ Limits.maxRegions →
    coverFrom t n taken a r =
      .ok (taken ++ (Layout.coverFrom t n a r).1, (Layout.coverFrom t n a r).2) := by
  intro n
  induction n with
  | zero =>
    intro a r taken _ _
    rw [coverFrom, Layout.coverFrom_zero, List.append_nil]
  | succ n ih =>
    intro a r taken hend hroom
    rw [coverFrom]
    split
    · rename_i hr
      rw [hr, Layout.coverFrom_done, List.append_nil]
    · rename_i hr
      rw [nextBlock?_eq, ok_bind]
      cases hb : t.nextBlock? a r with
      | none =>
        rw [Layout.coverFrom_none hb, List.append_nil]
      | some b =>
        obtain ⟨-, hle, -⟩ := SizeTable.consumed_of_nextBlock? hb
        have hlen : (taken ++ [b]).length + n ≤ Limits.maxRegions := by
          rw [List.length_append, List.length_singleton]
          omega
        simp only
        -- the block stays within the rest, so its end is at most that of the image
        rw [push_eq (by omega), ok_bind, consumed_eq (by omega), ok_bind, add_eq (by omega),
          ok_bind, sub_eq hle, ok_bind, ih (by omega) hlen, Layout.coverFrom_some hr hb,
          List.append_assoc, List.singleton_append]

theorem cover_eq {total maxSlots : Nat} (h : total < UInt32.size) :
    cover total maxSlots t = .ok (Layout.cover total maxSlots t) := by
  have hend : Limits.codeBase + total < UInt32.size := by rwa [Nat.zero_add]
  have hroom : ([] : List Block).length + min maxSlots Limits.maxRegions ≤ Limits.maxRegions := by
    rw [List.length_nil, Nat.zero_add]
    exact Nat.min_le_right _ _
  rw [cover, coverFrom_eq hend hroom, ok_bind, Layout.cover, List.nil_append]

end Words
end CodeGuard
