import Reckon.DenseMatrix.Basic

/-!
Gaussian elimination with partial pivoting. The factors of a square matrix are a list of steps, one
for each column, and each step works on the rows and columns that the steps before it have left.
Determinants, linear systems and inverses are read off the same steps. Matrices come and go in the
column-major form.
-/

namespace Reckon

/-- One step of an elimination. A row is moved to the top, its first entry is the pivot, and the
rows below are reduced by multiples of it. A column of zeros is passed over with pivot zero. -/
structure Elimination.Step (α : Type) where
  /-- Where the pivot row was found, counted from the first row that is left. -/
  source : Nat
  pivot : α
  /-- The entries behind the pivot in its row. -/
  row : List α
  /-- The multiples by which the rows below were reduced. -/
  multiples : List α

/-- The steps of an elimination, first column first. -/
abbrev Elimination (α : Type) := List (Elimination.Step α)

namespace Elimination

variable {α : Type}

/-- A list with the entry at `i` moved to the front and the first one into its place. -/
def swapFirst (i : Nat) : List α → List α
  | [] => []
  | x :: xs =>
    match i with
    | 0 => x :: xs
    | i + 1 => (xs.getD i x) :: xs.set i x

variable [Scalar α]

/-- The index of the first entry of largest magnitude, given the best so far and its index. -/
def largest (index best : Nat) (size : α) : List α → Nat
  | [] => best
  | x :: xs =>
    let magnitude := Scalar.magnitude x
    if Scalar.less size magnitude then largest (index + 1) index magnitude xs
    else largest (index + 1) best size xs

def pivotIndex : List α → Nat
  | [] => 0
  | x :: xs => largest 1 0 (Scalar.magnitude x) xs

/-- A row less a multiple of the pivot row. -/
def reduceRow (multiple : α) (pivotRow row : List α) : List α :=
  List.zipWith (fun p y => -p * multiple + y) pivotRow row

/-- One step on rows that are not empty, with the rows it leaves. -/
def step (first : List α) (others : List (List α)) : Step α × List (List α) :=
  let rows := first :: others
  let source := pivotIndex (rows.map fun row => row.headD Scalar.zero)
  let (top, below) := match swapFirst source rows with
    | [] => (first, others)
    | top :: below => (top, below)
  let pivot := top.headD Scalar.zero
  let heads := below.map fun row => row.headD Scalar.zero
  let tails := below.map List.tail
  if Scalar.isZero pivot then (⟨source, pivot, top.tail, heads⟩, tails)
  else
    let inverse := Scalar.one / pivot
    let multiples := heads.map (· * inverse)
    (⟨source, pivot, top.tail, multiples⟩,
      List.zipWith (fun multiple row => reduceRow multiple top.tail row) multiples tails)

/-- Eliminate the first `n` columns. -/
def ofRows : Nat → List (List α) → Elimination α
  | 0, _ => []
  | _ + 1, [] => []
  | n + 1, first :: others =>
    let (s, rest) := step first others
    s :: ofRows n rest

/-- The product of the pivots, negated once for every row that was moved. -/
def determinant (steps : Elimination α) : α :=
  let product := steps.foldl (fun acc s => acc * s.pivot) Scalar.one
  let moves := steps.countP fun s => s.source != 0
  product * (if moves % 2 = 0 then Scalar.one else -Scalar.one)

/-- Solve the system for a right-hand side; no answer if a pivot is zero. -/
def solve : Elimination α → List α → Option (List α)
  | [], _ => some []
  | s :: steps, b =>
    match swapFirst s.source b with
    | [] => none
    | first :: others =>
      let reduced := List.zipWith (fun multiple y => -first * multiple + y) s.multiples others
      match solve steps reduced with
      | none => none
      | some xs =>
        if Scalar.isZero s.pivot then none
        else
          let known := (s.row.zip xs).foldr (fun (u, x) acc => -x * u + acc) first
          some (known / s.pivot :: xs)

end Elimination

/-- The factors of a square matrix. -/
structure LuFactors (α : Type) where
  size : Nat
  steps : Elimination α

namespace LuFactors

variable {α : Type} [Scalar α]

def requireSquare (op : String) (m : DenseMatrix α) : Except Failure Unit :=
  if m.isSquare then .ok () else .error (.of (.dimension (.notSquare op m.rows m.cols)))

def ofMatrix (m : DenseMatrix α) : Except Failure (LuFactors α) := do
  requireSquare "lu" m
  return ⟨m.rows, .ofRows m.rows m.toColumnMajor.transpose.columns⟩

/-- Zero for a singular matrix. -/
def determinant (lu : LuFactors α) : α := lu.steps.determinant

def solve (lu : LuFactors α) (b : List α) : Except Failure (List α) :=
  if b.length ≠ lu.size then .error (.of (.dimension (.rightHandSide b.length lu.size)))
  else match lu.steps.solve b with
    | some xs => .ok xs
    | none => .error (.of .singularMatrix)

/-- The columns that solve the system for the columns of the identity. -/
def inverseColumns (lu : LuFactors α) : Option (ColumnMajor α) := do
  let columns ← (DenseMatrix.identityRows lu.size).mapM lu.steps.solve
  return .ofColumns lu.size columns

def inverse (lu : LuFactors α) : Except Failure (DenseMatrix α) :=
  match lu.inverseColumns with
  | some columns => DenseMatrix.ofColumnMajor columns
  | none => .error (.of .singularMatrix)

end LuFactors
end Reckon
