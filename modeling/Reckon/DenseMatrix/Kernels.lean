import Reckon.DenseMatrix.Elimination

/-!
The matrix kernels. Each one checks its preconditions first and says how many scalars
it took in.
-/

namespace Reckon.DenseMatrix

variable {α : Type} [Scalar α]

/-- A row of a product so far, plus a row of the right factor scaled by an entry of the left one.
A zero entry leaves the row as it is. -/
def addScaled (row : List α) (scale : α) (other : List α) : List α :=
  if Scalar.isZero scale then row
  else List.zipWith (fun o b => o + scale * b) row other

/-- A row with the multiples of the right factor's rows added that a row of the left one asks
for. -/
def productRow (start left : List α) (right : List (List α)) : List α :=
  (left.zip right).foldl (fun row (scale, other) => addScaled row scale other) start

def multiply (a b : DenseMatrix α) : Except Stop (Measured (DenseMatrix α)) :=
  if a.cols ≠ b.rows then
    .error (.failure (.of (.dimension (.product "multiply" a.rows a.cols b.rows b.cols))))
  else do
    let start ← zeros a.rows b.cols
    let right := b.toRows
    let rows := List.zipWith (fun left row => productRow row left right) a.toRows start.toRows
    let product ← new a.rows b.cols rows.flatten
    return ⟨product, a.data.length + b.data.length⟩

def transposed (m : DenseMatrix α) : Measured (DenseMatrix α) := ⟨m.transpose, m.data.length⟩

def determinant (m : DenseMatrix α) : Except Failure (Measured α) := do
  LuFactors.requireSquare "determinant" m
  let lu ← LuFactors.ofMatrix m
  return ⟨lu.determinant, m.data.length⟩

/-- The sum of the diagonal. -/
def trace (m : DenseMatrix α) : Except Failure (Measured α) := do
  LuFactors.requireSquare "trace" m
  let diagonal := (List.range m.rows).filterMap fun i => m.get? i i
  return ⟨Scalar.sum diagonal, m.data.length⟩

/-- A determinant of at most this magnitude counts as zero: `10 ^ -12`. -/
def singularLimit : α := Scalar.one / Scalar.ofNat 1000000000000

def inverse (m : DenseMatrix α) : Except Failure (Measured (DenseMatrix α)) := do
  LuFactors.requireSquare "inverse" m
  let lu ← LuFactors.ofMatrix m
  if Scalar.atMost (Scalar.magnitude lu.determinant) singularLimit then
    .error ((Failure.of .singularMatrix).suggest "Check for linearly dependent rows")
  else
    let inverse ← lu.inverse
    return ⟨inverse, m.data.length⟩

end Reckon.DenseMatrix
