import CodeGuard.SizeTable

/-!
# CodeGuard.Layout

Cutting an image into regions. A `Block` is one code region: whole, or with its lowest eighths
only. `Layout.cover` tiles an image from address zero, one block after the other: at each step the
smallest region that can finish the image exactly, else the largest region that still fits.

* `Layout.cover`: a layout of the image, or what is left of it when no block fits or the budget
  is spent.
* `Layout.check`: tests any layout against a size table and an image size, block by block.
-/

namespace CodeGuard

/-- A code region. `eighths` counts its enabled eighths, from the lowest; 0 stands for all. -/
structure Block where
  base : Nat
  size : Nat
  eighths : Nat
  deriving DecidableEq

namespace Block

def whole (base size : Nat) : Block :=
  ⟨base, size, 0⟩

def consumed (b : Block) : Nat :=
  if b.eighths = 0 then b.size else b.size / Limits.subregions * b.eighths

def finish (b : Block) : Nat :=
  b.base + b.consumed

@[simp] theorem consumed_whole (base size : Nat) : (whole base size).consumed = size := rfl

@[simp] theorem base_whole (base size : Nat) : (whole base size).base = base := rfl

end Block

/-- An image that the blocks did not cover to its end. -/
structure Shortfall where
  remaining : Nat
  slotsUsed : Nat
  deriving DecidableEq

namespace Shortfall

def message (s : Shortfall) : String :=
  "region budget exceeded: " ++ toString s.remaining ++ " bytes uncovered after " ++
    toString s.slotsUsed ++ " regions"

def toError (_ : Shortfall) : Error :=
  .regionBudgetExceeded

end Shortfall

namespace SizeTable

/-- A block of `size` bytes at `address` that covers exactly `remaining` bytes. -/
def fitExactly? (t : SizeTable) (address remaining size : Nat) : Option Block :=
  if size = remaining then
    some (Block.whole address size)
  else
    let subBlocks := remaining / t.subBlockSize size
    if (1 ≤ subBlocks ∧ subBlocks ≤ t.subdivisions) ∧
        subBlocks * t.subBlockSize size = remaining then
      some ⟨address, size, subBlocks * t.eighthsPerSubBlock⟩
    else
      none

/-- The smallest aligned region that covers exactly the rest of the image. -/
def exactFit? (t : SizeTable) (address remaining : Nat) : Option Block :=
  (t.alignedAt address).findSome? (t.fitExactly? address remaining)

/-- The largest aligned region that does not reach past the image. -/
def bestFit? (t : SizeTable) (address remaining : Nat) : Option Block :=
  (((t.alignedAt address).filter (· ≤ remaining)).getLast?).map (Block.whole address)

def nextBlock? (t : SizeTable) (address remaining : Nat) : Option Block :=
  match t.exactFit? address remaining with
  | some b => some b
  | none => t.bestFit? address remaining

end SizeTable

structure Layout where
  blocks : List Block
  deriving DecidableEq

namespace Layout

def empty : Layout :=
  ⟨[]⟩

def length (l : Layout) : Nat :=
  l.blocks.length

def isEmpty (l : Layout) : Bool :=
  l.blocks.isEmpty

def covered (l : Layout) : Nat :=
  l.blocks.foldr (fun b sum => b.consumed + sum) 0

/-- Takes at most `budget` blocks, the first at `address`. Answers the blocks and what is left of
the `remaining` bytes. -/
def coverFrom (t : SizeTable) : (budget address remaining : Nat) → List Block × Nat
  | 0, _, remaining => ([], remaining)
  | budget + 1, address, remaining =>
    if remaining = 0 then
      ([], 0)
    else
      match t.nextBlock? address remaining with
      | none => ([], remaining)
      | some b =>
        let (rest, left) := coverFrom t budget (address + b.consumed) (remaining - b.consumed)
        (b :: rest, left)

/-- Covers `total` bytes from the code base on. A unit has no more than sixteen regions, so neither
has a layout. -/
def cover (total maxSlots : Nat) (t : SizeTable) : Except Shortfall Layout :=
  let (blocks, left) := coverFrom t (min maxSlots Limits.maxRegions) Limits.codeBase total
  if left = 0 then .ok ⟨blocks⟩ else .error ⟨left, blocks.length⟩

/-- Checks that the blocks follow each other from `expected` on; answers where the last one ends. -/
def checkFrom (t : SizeTable) : Nat → List Block → Except Error Nat
  | expected, [] => .ok expected
  | expected, b :: rest =>
    if ¬ t.contains b.size ∨ Limits.subregions < b.eighths then .error .invalidRegionSize
    else if b.base % b.size ≠ 0 then .error .invalidAlignment
    else if b.base ≠ expected then .error .regionTableMismatch
    else checkFrom t b.finish rest

def check (l : Layout) (total : Nat) (t : SizeTable) : Except Error Unit :=
  match checkFrom t Limits.codeBase l.blocks with
  | .error e => .error e
  | .ok finish =>
    if finish - Limits.codeBase = total then .ok () else .error .regionTableMismatch

end Layout
end CodeGuard
