import Reckon.DenseMatrix.Elimination

/-!
Eigenvalues by the real Schur form: the matrix is reduced to Hessenberg form by reflections, then
double-shifted QR sweeps make it block triangular, with blocks of one real eigenvalue or of one
complex pair. Small sizes are decided directly.
-/

namespace Reckon

structure Eigenvalue where
  re : Binary64
  im : Binary64

/-- A square matrix under reduction. -/
structure Schur.Work where
  size : Nat
  entries : Array Binary64

namespace Schur

namespace Work

def get (w : Work) (i j : Nat) : Binary64 := w.entries.getD (i * w.size + j) 0

def set (w : Work) (i j : Nat) (x : Binary64) : Work :=
  { w with entries := w.entries.setIfInBounds (i * w.size + j) x }

def ofRows (rows : List (List Binary64)) : Work := ⟨rows.length, rows.flatten.toArray⟩

def map (f : Binary64 → Binary64) (w : Work) : Work := { w with entries := w.entries.map f }

/-- Apply `f` at `0`, `1`, up to below `count`. -/
def each (count : Nat) (f : Work → Nat → Work) (w : Work) : Work := (List.range count).foldl f w

/-- Part of a column, from row `top` on. -/
def column (w : Work) (top height j : Nat) : List Binary64 :=
  (List.range height).map fun i => w.get (top + i) j

/-- The larger of two magnitudes, the second if they do not compare. -/
def larger (x y : Binary64) : Binary64 := if x ≥ y then x else y

/-- The largest magnitude of the entries, taken column after column. A NaN is the largest so far
until another entry follows it. -/
def largest (w : Work) : Binary64 :=
  let columns := (List.range w.size).flatMap (w.column 0 w.size)
  match columns.map Binary64.abs with
  | [] => 0
  | first :: rest => rest.foldl larger first

end Work

/-- The sum of the products, in eight lanes as long as eight entries are left. -/
def dot (u v : List Binary64) : Binary64 :=
  lanes u v (List.replicate 8 0) u.length
where
  lanes (u v sums : List Binary64) : Nat → Binary64
    | n + 8 =>
      let products := List.zipWith (· * ·) (u.take 8) (v.take 8)
      lanes (u.drop 8) (v.drop 8) (List.zipWith (· + ·) sums products) n
    | _ =>
      let folded := (List.zipWith (· + ·) (sums.take 4) (sums.drop 4)).foldl (· + ·) 0
      (List.zipWith (· * ·) u v).foldl (· + ·) folded

def norm (u : List Binary64) : Binary64 := (dot u u).sqrt

/-- The sign of a number, positive for both zeros. -/
def sign (x : Binary64) : Binary64 := if x ≥ 0 then 1 else -1

/-- The unit axis of the reflection that takes a vector to a multiple of the first unit vector,
with that multiple; no axis for a zero vector. -/
def reflection (u : List Binary64) : Option (List Binary64) × Binary64 :=
  match u with
  | [] => (none, 0)
  | x :: rest =>
    let square := dot u u
    let length := square.sqrt
    let signed := sign x * length
    let factor := (square + x.abs * length) * 2
    if factor.isZero then (none, signed)
    else
      let axis := ((x + signed) :: rest).map (· / factor.sqrt)
      let length := norm axis
      (some (axis.map (· / length)), -signed)

/-- Reflect the rows from `top` on, in the columns from `left` on, and scale them by `scale`. -/
def reflectRows (axis : List Binary64) (top left : Nat) (scale : Binary64) (w : Work) : Work :=
  w.each (w.size - left) fun w c =>
    let j := left + c
    let factor := dot axis (w.column top axis.length j) * (scale * -2)
    axis.zipIdx.foldl
      (fun w (a, i) => w.set (top + i) j (factor * a + scale * w.get (top + i) j)) w

/-- Reflect the columns from `left` on, in the first `height` rows, and scale them by `scale`. -/
def reflectColumns (axis : List Binary64) (left height : Nat) (scale : Binary64) (w : Work) :
    Work :=
  w.each height fun w i =>
    let terms := axis.zipIdx.map fun (a, j) => w.get i (left + j) * a
    let image := match terms with
      | [] => 0
      | first :: rest => rest.foldl (fun sum term => term + sum) first
    axis.zipIdx.foldl
      (fun w (a, j) =>
        w.set i (left + j) (scale * -2 * a * image + scale * w.get i (left + j))) w

/-- Hessenberg form: below the first subdiagonal all entries are zero, and on it none is
negative. -/
def hessenberg (w : Work) : Work :=
  w.each (w.size - 1) fun w k =>
    let (axis?, length) := reflection (w.column (k + 1) (w.size - (k + 1)) k)
    let w := match axis? with
      | some axis =>
        let side := sign length
        reflectRows axis (k + 1) (k + 1) side (reflectColumns axis (k + 1) w.size side w)
      | none => w
    (w.set (k + 1) k length.abs).each (w.size - (k + 2)) fun w i => w.set (k + 2 + i) k 0

/-- The distance between one and the next number. -/
def epsilon : Binary64 := 2.220446049250313e-16

/-- An entry below the diagonal that is negligible beside its neighbours on the diagonal. -/
def negligible (w : Work) (i : Nat) : Bool :=
  (w.get i (i - 1)).abs ≤ epsilon * ((w.get i i).abs + (w.get (i - 1) (i - 1)).abs)

/-- Drop negligible entries from the bottom up; the last row that still has one that counts. -/
def trimEnd (w : Work) : Nat → Work × Nat
  | 0 => (w, 0)
  | n + 1 =>
    if negligible w (n + 1) then trimEnd (w.set (n + 1) n 0) n else (w, n + 1)

/-- The first row of the block that reaches down from `start`. -/
def blockStart (w : Work) : Nat → Work × Nat
  | 0 => (w, 0)
  | start + 1 =>
    if (w.get (start + 1) start).isZero || negligible w (start + 1) then
      (w.set (start + 1) start 0, start + 1)
    else blockStart w start

/-- The last block, not below row `bottom`, that is not reduced yet; its first and last row. -/
def lastBlock (w : Work) (bottom : Nat) : Work × Nat × Nat :=
  match trimEnd w bottom with
  | (w, 0) => (w, 0, 0)
  | (w, last + 1) =>
    let (w, start) := blockStart w last
    (w, start, last + 1)

/-- The plane rotation that decouples a block of two rows with real eigenvalues: its cosine and
its sine. -/
def decoupling (w : Work) (i : Nat) : Option (Binary64 × Binary64) :=
  let h00 := w.get i i
  let h01 := w.get i (i + 1)
  let h10 := w.get (i + 1) i
  let h11 := w.get (i + 1) (i + 1)
  let half := (h00 - h11) * 0.5
  let discriminant := h10 * h01 + half * half
  if h10.isZero || !(discriminant ≥ 0) then none
  else
    let root := discriminant.sqrt
    let middle := (h00 + h11) * 0.5
    let x1 := middle + root - h11
    let x2 := middle - root - h11
    let x := if x1.abs > x2.abs then x1 else x2
    let length := (x.abs * x.abs + h10 * h10).sqrt
    if length > 0 then some (x.abs / length, h10 / (sign x * length)) else some (1, 0)

/-- Apply a plane rotation to rows and columns `i` and `i + 1`, down to row `bottom`. -/
def rotate (i bottom : Nat) (cosine sine : Binary64) (w : Work) : Work :=
  let w := w.each (w.size - i) fun w c =>
    let a := w.get i (i + c)
    let b := w.get (i + 1) (i + c)
    (w.set i (i + c) (a * cosine - -sine * b)).set (i + 1) (i + c) (-sine * a + b * cosine)
  let w := w.each (bottom + 1) fun w r =>
    let a := w.get r i
    let b := w.get r (i + 1)
    (w.set r i (a * cosine + sine * b)).set r (i + 1) (-sine * a + b * cosine)
  w.set (i + 1) i 0

def decouple (w : Work) (i bottom : Nat) : Work :=
  match decoupling w i with
  | some (cosine, sine) => rotate i bottom cosine sine w
  | none => w

/-- One double-shifted sweep over the block from `start` to `last`. -/
def sweep (w : Work) (start last : Nat) : Work :=
  let h := w.get
  let h11 := h start start
  let h21 := h (start + 1) start
  let trace := h last last + h (last - 1) (last - 1)
  let det := h last last * h (last - 1) (last - 1) - h last (last - 1) * h (last - 1) last
  let x := h11 * h11 + h start (start + 1) * h21 - trace * h11 + det
  let y := h21 * (h11 + h (start + 1) (start + 1) - trace)
  let z := h21 * h (start + 2) (start + 1)
  let chase := fun ((w, u) : Work × List Binary64) (c : Nat) =>
    let k := start + c
    let (axis?, length) := reflection u
    let w := match axis? with
      | none => w
      | some axis =>
        let w := if k > start then
            ((w.set k (k - 1) length).set (k + 1) (k - 1) 0).set (k + 2) (k - 1) 0
          else w
        reflectColumns axis k (min (k + 4) (last + 1)) 1 (reflectRows axis k k 1 w)
    (w, [w.get (k + 1) k, w.get (k + 2) k, w.get (k + 3) k])
  let (w, u) := (List.range (last - 1 - start)).foldl chase (w, [x, y, z])
  let (axis?, length) := reflection (u.take 2)
  match axis? with
  | none => w
  | some axis =>
    let k := last - 1
    let w := (w.set k (k - 1) length).set last (k - 1) 0
    reflectColumns axis k (last + 1) 1 (reflectRows axis k k 1 w)

/-- Reduce block after block, in fewer than `budget` steps. -/
def reduce : Nat → Work → Nat → Nat → Option Work
  | 0, _, _, _ => none
  | budget + 1, w, start, last =>
    if start = last then some w
    else if start + 1 < last then
      let (w, start, last) := lastBlock (sweep w start last) last
      reduce budget w start last
    else
      let w := decouple w start last
      if last > 2 then
        let (w, start, last) := lastBlock w (last - 2)
        reduce budget w start last
      else some w

/-- The block triangular form, if the budget of steps suffices. -/
def form (budget : Nat) (w : Work) : Option Work :=
  match w.size with
  | 0 | 1 => some w
  | 2 => some (decouple w 0 1)
  | size =>
    let scale := w.largest
    let (w, start, last) := lastBlock (hessenberg (w.map (· / scale))) (size - 1)
    (reduce budget w start last).map fun w => w.map (· * scale)

/-- The eigenvalues of the blocks from row `i` on, with at most `bound` blocks left. -/
def eigenvalues (w : Work) : Nat → Nat → List Eigenvalue
  | 0, _ => []
  | bound + 1, i =>
    if w.size ≤ i then []
    else if i + 1 = w.size || (w.get (i + 1) i).isZero then
      ⟨w.get i i, 0⟩ :: eigenvalues w bound (i + 1)
    else
      let half := (w.get i i - w.get (i + 1) (i + 1)) * 0.5
      let discriminant := w.get (i + 1) i * w.get i (i + 1) + half * half
      let root := (-discriminant).sqrt
      let middle := (w.get (i + 1) (i + 1) + w.get i i) * 0.5
      ⟨middle + 0, 0 + root⟩ :: ⟨middle - 0, 0 - root⟩ :: eigenvalues w bound (i + 2)

end Schur

namespace Eigenvalue

/-- Descending real parts, then descending imaginary parts. What does not compare counts as
equal. -/
def precedes (v u : Eigenvalue) : Bool :=
  if v.re > u.re then true
  else if v.re < u.re then false
  else v.im > u.im

/-- Put an eigenvalue behind the last one that it does not precede; the list is in reverse. -/
def insert (v : Eigenvalue) : List Eigenvalue → List Eigenvalue
  | [] => [v]
  | last :: before => if v.precedes last then last :: insert v before else v :: last :: before

/-- Each eigenvalue in turn is put into its place among those before it. With a NaN between them,
eigenvalues keep their order. -/
def sorted (vs : List Eigenvalue) : List Eigenvalue :=
  (vs.foldl (fun found v => insert v found) []).reverse

end Eigenvalue

namespace DenseMatrix

/-- The most steps that a reduction may take. -/
def eigenvalueSteps : Nat := 1000

def eigenvalues (m : DenseMatrix Binary64) : Except Failure (Measured (List Eigenvalue)) := do
  LuFactors.requireSquare "eigenvalues" m
  match Schur.form eigenvalueSteps (.ofRows m.toRows) with
  | none => .error (.of (.noConvergence "eigenvalues" eigenvalueSteps))
  | some w =>
    let found := Schur.eigenvalues w w.size 0
    return ⟨Eigenvalue.sorted found, m.data.length⟩

end DenseMatrix
end Reckon
