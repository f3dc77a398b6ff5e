import Reckon.Bindings
import Reckon.Builtin
import Reckon.DenseMatrix.Kernels
import Reckon.DenseVector
import Reckon.Expr.Basic
import Reckon.Statistics.Pairs
import Reckon.Statistics.Summary

/-!
Evaluating a tree to a binary64 number. Angles are in radians. NaN and infinities spread; only what
lies outside a function's domain is a failure, and no comparison with a NaN says so.
-/

namespace Reckon

/-- The value of a named constant. -/
def constant? : String → Option Binary64
  | "pi" => some 3.141592653589793
  | "e" => some 2.718281828459045
  | _ => none

theorem constant?_eq_none {name : String} :
    constant? name = none ↔ name ≠ "pi" ∧ name ≠ "e" := by
  unfold constant?
  split <;> simp_all

namespace Expr

/-- Constants come before bindings, so a binding cannot change them. -/
def lookup (b : Bindings) (name : String) : Except Failure Binary64 :=
  match constant? name with
  | some value => .ok value
  | none =>
    match b.get? name with
    | some value => .ok value
    | none => .error (.of (if name = answerName then .noPreviousAnswer else .unbound name))

def applyOperator (op : Operator) (l r : Binary64) : Except Failure Binary64 :=
  match op with
  | .add => .ok (l + r)
  | .sub => .ok (l - r)
  | .mul => .ok (l * r)
  | .div =>
    if r.isZero then .error ((Failure.of .divisionByZero).suggest "Ensure divisor is not zero")
    else .ok (l / r)
  | .pow => .ok (l.pow r)

/-- The largest whole number with a finite factorial. -/
def maxFactorial : Nat := 170

def factorialOf (x : Binary64) : Except Failure Binary64 :=
  if x.isNaN then .ok x
  else if x < 0 || !x.isWhole then .error (.of (.domain (.factorial x)))
  else if Binary64.ofNat maxFactorial < x then .ok (.ofMagnitude false Binary64.infinity)
  else
    let n := x.floorMagnitude
    .ok ((List.range' 2 (n - 1)).foldl (fun product k => product * Binary64.ofNat k) 1)

def requireUnitInterval (f : Builtin) (x : Binary64) : Except Failure Unit :=
  if x < -1 || 1 < x then .error (.of (.domain (.outsideUnitInterval f.name x))) else .ok ()

def requireNonNegative (f : Builtin) (x : Binary64) : Except Failure Unit :=
  if x < 0 then .error (.of (.domain (.negative f.name x))) else .ok ()

/-- A function of one number. -/
def applyScalar (f : Builtin) (x : Binary64) : Except Failure Binary64 :=
  match f with
  | .sin => .ok (x.apply Float.sin)
  | .cos => .ok (x.apply Float.cos)
  | .tan => .ok (x.apply Float.tan)
  | .asin => do requireUnitInterval f x; return x.apply Float.asin
  | .acos => do requireUnitInterval f x; return x.apply Float.acos
  | .atan => .ok (x.apply Float.atan)
  | .sinh => .ok (x.apply Float.sinh)
  | .cosh => .ok (x.apply Float.cosh)
  | .tanh => .ok (x.apply Float.tanh)
  | .ln => do requireNonNegative f x; return x.apply Float.log
  | .log => do requireNonNegative f x; return x.apply Float.log10
  | .sqrt => do requireNonNegative f x; return x.sqrt
  | .abs => .ok x.abs
  | .exp => .ok (x.apply Float.exp)
  | _ => .error (.of (.needsSymbolic f.name))

/-- The logarithm of a number that is not negative, to any base. -/
def logarithm (x base : Binary64) : Except Failure Binary64 :=
  if base ≤ 0 || base.equals 1 then .error (.of (.domain (.logarithmBase base)))
  else .ok (x.apply Float.log / base.apply Float.log)

/-- A function of one sequence. -/
def applySequence (f : Builtin) (xs : List Binary64) : Except Failure Binary64 :=
  match f with
  | .norm => (DenseVector.norm xs).map (·.value)
  | .mean => (Statistics.mean xs).map (·.value)
  | .median => (Statistics.median xs).map (·.value)
  | .stddev => (Statistics.standardDeviation xs).map (·.value)
  | _ => .error (.of (.needsSymbolic f.name))

/-- A function of two sequences. -/
def applySequences (f : Builtin) (xs ys : List Binary64) : Except Failure Binary64 :=
  match f with
  | .dot => (DenseVector.dot xs ys).map (·.value)
  | .corr => (Statistics.correlation xs ys).map (·.value)
  | _ => .error (.of (.needsSymbolic f.name))

def isList : Expr → Bool
  | list _ => true
  | _ => false

/-- Why a call fails before any of its arguments is evaluated. -/
def callFailure? (func : String) (count : Nat) : Option Failure :=
  match Builtin.ofName? func with
  | none => some (.of (.argument (.unknownFunction func)))
  | some f =>
    if !f.accepts count then some (.of (.argument (.count func f.arityText count)))
    else if f.isHigherOrder then some (.of (.needsSymbolic func))
    else none

mutual

/-- The value of a tree. Operands are evaluated from left to right, and the first failure ends the
evaluation. -/
def eval (b : Bindings) : Expr → Except Failure Binary64
  | number value => .ok value
  | var name => lookup b name
  | binary op left right => do
    let l ← left.eval b
    let r ← right.eval b
    applyOperator op l r
  | neg operand => do return -(← operand.eval b)
  | factorial operand => do factorialOf (← operand.eval b)
  | list _ =>
    .error ((Failure.of (.argument .listAsNumber)).suggest
      "Pass lists to det, dot, norm, mean, median, stddev or corr")
  | call func args =>
    match callFailure? func args.length, Builtin.ofName? func with
    | some failure, _ => .error failure
    | none, none => .error (.of (.argument (.unknownFunction func)))
    | none, some f => evalArguments b f args

/-- A function applied to the arguments of a call. -/
def evalArguments (b : Bindings) (f : Builtin) : List Expr → Except Failure Binary64
  | [x] =>
    if f = .det then do
      let rows ← evalMatrix b f x
      let m ← DenseMatrix.ofRows rows
      return (← DenseMatrix.determinant m).value
    else if f.isArray then do applySequence f (← evalSequence b f x)
    else do applyScalar f (← x.eval b)
  | [x, y] =>
    if f.isArray then do
      let xs ← evalSequence b f x
      let ys ← evalSequence b f y
      applySequences f xs ys
    else do
      let x ← x.eval b
      requireNonNegative f x
      logarithm x (← y.eval b)
  | args => .error (.of (.argument (.count f.name f.arityText args.length)))

/-- The values of a list literal. -/
def evalSequence (b : Bindings) (f : Builtin) : Expr → Except Failure (List Binary64)
  | list items => evalAll b items
  | _ => .error (.of (.argument (.expectedList f.name)))

/-- The rows of a list of list literals. -/
def evalMatrix (b : Bindings) (f : Builtin) : Expr → Except Failure (List (List Binary64))
  | list rows =>
    if rows.all isList then evalRows b f rows else .error (.of (.argument (.expectedMatrix f.name)))
  | _ => .error (.of (.argument (.expectedMatrix f.name)))

def evalAll (b : Bindings) : List Expr → Except Failure (List Binary64)
  | [] => .ok []
  | e :: es => do
    let x ← e.eval b
    let xs ← evalAll b es
    return x :: xs

def evalRows (b : Bindings) (f : Builtin) : List Expr → Except Failure (List (List Binary64))
  | [] => .ok []
  | row :: rows => do
    let xs ← evalSequence b f row
    let xss ← evalRows b f rows
    return xs :: xss

end

end Expr
end Reckon
