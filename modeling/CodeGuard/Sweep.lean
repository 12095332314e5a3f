import CodeGuard.Layout

/-!
# CodeGuard.Sweep

Trying the layout of many image sizes in a row.

* `Sweep.run`: tries `start`, `start + step`, … up to `stop` and counts how many can be covered.
* A report keeps the first fifty sizes that failed and counts the rest.
-/

namespace CodeGuard
namespace Sweep

abbrev maxRecordedFailures : Nat := 50

structure Report where
  tested : Nat := 0
  succeeded : Nat := 0
  failures : Nat := 0
  failedSizes : List Nat := []
  deriving DecidableEq

namespace Report

def allPassed (r : Report) : Bool :=
  r.failures == 0

def record (r : Report) (size : Nat) (passed : Bool) : Report :=
  if passed then
    { r with tested := r.tested + 1, succeeded := r.succeeded + 1 }
  else
    { r with
      tested := r.tested + 1
      failures := r.failures + 1
      failedSizes :=
        if r.failedSizes.length < maxRecordedFailures then r.failedSizes ++ [size]
        else r.failedSizes }

def text (r : Report) : String :=
  "tested " ++ toString r.tested ++ " succeeded " ++ toString r.succeeded ++ " failed " ++
    toString r.failures ++ "\n" ++
    String.join (r.failedSizes.map fun size => "failed size: " ++ toString size ++ "\n")

end Report

/-- The image has a layout that passes its own check. -/
def passes (maxSlots : Nat) (t : SizeTable) (size : Nat) : Bool :=
  match Layout.cover size maxSlots t with
  | .error _ => false
  | .ok l => (l.check size t).isOk

/-- How many sizes are tried from `start` to `stop`, both included. -/
def count (start stop step : Nat) : Nat :=
  if start ≤ stop then (stop - start) / step + 1 else 0

/-- Tries `n` more sizes, the first of them `size`. -/
def runFrom (step maxSlots : Nat) (t : SizeTable) : (n size : Nat) → Report → Report
  | 0, _, r => r
  | n + 1, size, r =>
    runFrom step maxSlots t n (size + step) (r.record size (passes maxSlots t size))

/-- A step of zero counts as one. -/
def run (start stop step maxSlots : Nat) (t : SizeTable) : Report :=
  runFrom (max step 1) maxSlots t (count start stop (max step 1)) start {}

end Sweep
end CodeGuard
