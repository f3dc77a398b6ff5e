import Reckon.Failure
import Reckon.Scalar

/-!
What the statistics of one and of two sequences share: preconditions, averages, and sums of
deviations from the average. Nothing falls back to zero on missing data.
-/

namespace Reckon.Statistics

variable {α : Type} [Scalar α]

def requireValues (op : String) (xs : List α) : Except Failure Unit :=
  if xs.isEmpty then .error (.of (.emptyInput op)) else .ok ()

def requireCount (op : String) (needed : Nat) (xs : List α) : Except Failure Unit :=
  if xs.length < needed then .error (.of (.insufficientData op needed xs.length)) else .ok ()

/-- Two sequences of equal length, with two points or more. -/
def requirePairs (op : String) (xs ys : List α) : Except Failure Unit := do
  requireValues op xs
  requireValues op ys
  if xs.length ≠ ys.length then
    .error (.of (.dimension (.sequenceLengths op xs.length ys.length)))
  else requireCount op 2 xs

/-- The arithmetic mean of a sequence that is not empty. -/
def average (xs : List α) : α := Scalar.sum xs / Scalar.ofNat xs.length

/-- The sum of the products of the deviations of two sequences from their means. -/
def coDeviation (xs ys : List α) : α :=
  let mx := average xs
  let my := average ys
  Scalar.sum (List.zipWith (fun x y => (x - mx) * (y - my)) xs ys)

end Reckon.Statistics
