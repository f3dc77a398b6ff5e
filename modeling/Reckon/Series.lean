import Reckon.Expr.Eval
import Reckon.Expr.Parser

/-!
Sampling expressions of one variable over evenly spaced points. A point without a finite value
stays in its series as a gap, and an expression that does not parse fails alone.
-/

namespace Reckon

/-- The variable that is bound at each point. -/
def sampleVariable : String := "x"

structure SamplePoint where
  x : Binary64
  /-- Absent where the expression has no finite value. -/
  y : Option Binary64

inductive Series.Status where
  | complete
  | gapped (failedPoints : Nat)
  | failed (message : String)
deriving DecidableEq

structure Series where
  expression : String
  points : List SamplePoint
  status : Series.Status

namespace Series

/-- The most points of a series. -/
def maxPoints : Nat := 100000

def checkDomain (low high : Binary64) (count : Nat) : Except Failure Unit :=
  if !low.isFinite || !high.isFinite || low ≥ high then
    .error (.of (.argument (.sampleDomain low high)))
  else if count < 2 || maxPoints < count then
    .error (.of (.argument (.pointCount maxPoints count)))
  else .ok ()

/-- Evenly spaced points; the last one is `high` itself. -/
def abscissae (low high : Binary64) (count : Nat) : List Binary64 :=
  let step := (high - low) / Binary64.ofNat (count - 1)
  (List.range count).map fun i => if i = count - 1 then high else low + Binary64.ofNat i * step

/-- What is carried from point to point: one set of bindings serves all of them, and the gaps
are counted. -/
structure Walk where
  bindings : Bindings
  gaps : Nat

def finiteValue? : Except Failure Binary64 → Option Binary64
  | .ok y => if y.isFinite then some y else none
  | .error _ => none

/-- Move the variable to a point and evaluate there. -/
def visit (e : Expr) (x : Binary64) : StateM Walk SamplePoint := do
  let walk ← get
  let bindings := walk.bindings.set sampleVariable x
  let y := finiteValue? (e.eval bindings)
  set (⟨bindings, if y.isNone then walk.gaps + 1 else walk.gaps⟩ : Walk)
  return ⟨x, y⟩

def ofExpr (expression : String) (e : Expr) (xs : List Binary64) : Series :=
  let (points, walk) := (xs.mapM (visit e)).run ⟨.empty, 0⟩
  ⟨expression, points, if walk.gaps = 0 then .complete else .gapped walk.gaps⟩

def ofText (expression : String) (xs : List Binary64) : Series :=
  match Expr.parse expression with
  | .ok parsed => ofExpr expression parsed.expr xs
  | .error f => ⟨expression, [], .failed f.message⟩

end Series

/-- Sample one expression. Only the domain can make this fail. -/
def sample (expression : String) (low high : Binary64) (count : Nat) :
    Except Failure (Measured Series) := do
  Series.checkDomain low high count
  return ⟨.ofText expression (Series.abscissae low high count), count⟩

/-- Sample several expressions over one domain. -/
def sampleAll (expressions : List String) (low high : Binary64) (count : Nat) :
    Except Failure (Measured (List Series)) := do
  Series.checkDomain low high count
  let xs := Series.abscissae low high count
  return ⟨expressions.map fun text => .ofText text xs, count * expressions.length⟩

end Reckon
