import Reckon.Decimal.Shortest
import Reckon.Failure
import Reckon.Scalar

/-!
Dense matrices in row-major order. Sizes are 64-bit words, and where the product of two of them is
more than a word holds the program stops. What a memory holds can be counted in a word; how much
there is of it is not asked.
-/

namespace Reckon

/-- How a call ends that has no result. -/
inductive Stop where
  | failure (f : Failure)
  /-- A product of sizes is more than a word holds. This is no failure that a caller can look at:
  the program ends. -/
  | overflow
deriving DecidableEq

/-- The number of entries that a shape asks for, if a word holds it. -/
def entryCount? (rows cols : Nat) : Option Nat :=
  if rows * cols < UInt64.size then some (rows * cols) else none

/-- Work with the number of entries of a shape. -/
def counted {β : Type} (rows cols : Nat) (work : Nat → Except Failure β) : Except Stop β :=
  match entryCount? rows cols with
  | some count => (work count).mapError .failure
  | none => .error .overflow

structure DenseMatrix (α : Type) where
  rows : Nat
  cols : Nat
  data : List α
  rows_pos : 0 < rows
  cols_pos : 0 < cols
  length_data : entryCount? rows cols = some data.length

namespace DenseMatrix

variable {α : Type}

/-- The matrix of data that are there. No shape of theirs has more entries than a word counts. -/
def ofData (rows cols : Nat) (data : List α) : Except Failure (DenseMatrix α) :=
  if h : 0 < rows ∧ 0 < cols then
    if h' : entryCount? rows cols = some data.length then .ok ⟨rows, cols, data, h.1, h.2, h'⟩
    else .error (.of (.dimension (.entryCount rows cols (rows * cols) data.length)))
  else .error (.of (.argument (.emptyShape rows cols)))

/-- The matrix of a shape that is given in numbers. A shape with a zero has no product that
overflows, so the count may come first. -/
def new (rows cols : Nat) (data : List α) : Except Stop (DenseMatrix α) :=
  counted rows cols fun _ => ofData rows cols data

/-- The first row, counted from `index`, that is not `cols` long. -/
def raggedRow? (cols : Nat) : Nat → List (List α) → Option (Nat × Nat)
  | _, [] => none
  | index, row :: rows =>
    if row.length = cols then raggedRow? cols (index + 1) rows else some (index, row.length)

def ofRows : List (List α) → Except Failure (DenseMatrix α)
  | [] => .error (.of (.emptyInput "matrix"))
  | row :: rows =>
    match raggedRow? row.length 0 (row :: rows) with
    | some (index, got) => .error (.of (.dimension (.raggedRow index got row.length)))
    | none => ofData (rows.length + 1) row.length (row :: rows).flatten

def shape (m : DenseMatrix α) : Nat × Nat := (m.rows, m.cols)

def isSquare (m : DenseMatrix α) : Bool := m.rows == m.cols

/-- Where an entry lies in the data. -/
def position (m : DenseMatrix α) (i j : Nat) : Nat := i * m.cols + j

def get? (m : DenseMatrix α) (i j : Nat) : Option α :=
  if i < m.rows ∧ j < m.cols then m.data[m.position i j]? else none

def row? (m : DenseMatrix α) (i : Nat) : Option (List α) :=
  if i < m.rows then some ((m.data.drop (m.position i 0)).take m.cols) else none

/-- A list cut into `count` pieces of one length. -/
def pieces (length : Nat) : Nat → List α → List (List α)
  | 0, _ => []
  | count + 1, xs => xs.take length :: pieces length count (xs.drop length)

/-- The data in pieces of one row each; what is left over makes a last piece. -/
def toRows (m : DenseMatrix α) : List (List α) :=
  pieces m.cols ((m.data.length + m.cols - 1) / m.cols) m.data

theorem entryCount?_comm (rows cols : Nat) : entryCount? rows cols = entryCount? cols rows := by
  simp [entryCount?, Nat.mul_comm]

/-- The entries of `rows` rows in the order of the columns: entry `k` comes from row `k % rows`
and column `k / rows`. -/
def byColumns (rows cols : Nat) (data : List α) : List α :=
  let entries := data.toArray
  data.mapIdx fun k x => entries.getD (k % rows * cols + k / rows) x

def transpose (m : DenseMatrix α) : DenseMatrix α where
  rows := m.cols
  cols := m.rows
  data := byColumns m.rows m.cols m.data
  rows_pos := m.cols_pos
  cols_pos := m.rows_pos
  length_data := by simp [byColumns, m.length_data, entryCount?_comm m.cols]

variable [Scalar α]

def zeros (rows cols : Nat) : Except Stop (DenseMatrix α) :=
  counted rows cols fun count => ofData rows cols (List.replicate count Scalar.zero)

/-- The rows of the identity matrix. -/
def identityRows (n : Nat) : List (List α) :=
  (List.range n).map fun i =>
    (List.range n).map fun j => if i = j then Scalar.one else Scalar.zero

def identity (n : Nat) : Except Stop (DenseMatrix α) :=
  counted n n fun _ => ofData n n (identityRows n).flatten

/-- The largest difference between corresponding entries; a difference that compares with nothing
is passed over. -/
def maxAbsDiff (m m' : DenseMatrix α) : Option α :=
  if m.shape = m'.shape then
    let differences := List.zipWith (fun x y => Scalar.magnitude (x - y)) m.data m'.data
    some (differences.foldl (fun best d => if Scalar.less best d then d else best) Scalar.zero)
  else none

/-- Entries written by `entry`, with a comma and a blank between them, in brackets. -/
def bracket {β : Type} (entry : β → List Char) (entries : List β) : List Char :=
  '[' :: [',', ' '].intercalate (entries.map entry) ++ [']']

end DenseMatrix

/-- A matrix stored column by column, the form in which matrices are factored. -/
structure ColumnMajor (α : Type) where
  rows : Nat
  cols : Nat
  data : List α

namespace ColumnMajor

variable {α : Type}

def columns (m : ColumnMajor α) : List (List α) := DenseMatrix.pieces m.rows m.cols m.data

def ofColumns (rows : Nat) (columns : List (List α)) : ColumnMajor α :=
  ⟨rows, columns.length, columns.flatten⟩

/-- Columns in a row are the rows of the transpose. -/
def transpose (m : ColumnMajor α) : ColumnMajor α :=
  ⟨m.cols, m.rows, DenseMatrix.byColumns m.cols m.rows m.data⟩

end ColumnMajor

namespace DenseMatrix

variable {α : Type}

def toColumnMajor (m : DenseMatrix α) : ColumnMajor α :=
  ⟨m.rows, m.cols, byColumns m.rows m.cols m.data⟩

def ofColumnMajor (m : ColumnMajor α) : Except Failure (DenseMatrix α) :=
  ofData m.rows m.cols m.transpose.data

end DenseMatrix

/-- The text of a matrix: its rows as lists, which expression text reads as well. -/
def DenseMatrix.print (m : DenseMatrix Binary64) : List Char :=
  bracket (bracket Decimal.plainChars) m.toRows

end Reckon
