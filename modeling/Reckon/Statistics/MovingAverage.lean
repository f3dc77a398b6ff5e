import Reckon.Statistics.Basic

/-!
Moving averages: the means of all windows of one width. The sum of a window is the sum of the one
before it, changed by what enters less what leaves.
-/

namespace Reckon.Statistics

variable {α : Type} [Scalar α]

/-- The sums after each step, given the values that enter and those that leave. -/
def slide (sum : α) : List (α × α) → List α
  | [] => []
  | (entering, leaving) :: steps =>
    let sum := sum + (entering - leaving)
    sum :: slide sum steps

/-- The sums of all windows of a width. -/
def windowSums (width : Nat) (xs : List α) : List α :=
  let first := Scalar.sum (xs.take width)
  first :: slide first ((xs.drop width).zip xs)

def movingAverage (xs : List α) (width : Nat) : Except Failure (Measured (List α)) := do
  requireValues "moving_average" xs
  if width = 0 ∨ xs.length < width then .error (.of (.argument (.window xs.length width)))
  else return ⟨(windowSums width xs).map (· / Scalar.ofNat width), xs.length⟩

end Reckon.Statistics
