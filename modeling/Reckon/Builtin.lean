/-!
The table of functions that expression text may call, with the number of arguments each takes and
what they are.
-/

namespace Reckon

inductive Builtin where
  | sin
  | cos
  | tan
  | asin
  | acos
  | atan
  | sinh
  | cosh
  | tanh
  | ln
  | log
  | sqrt
  | abs
  | exp
  | integrate
  | diff
  | sum
  | limit
  | det
  | dot
  | norm
  | mean
  | median
  | stddev
  | corr
deriving DecidableEq, Repr, Inhabited

namespace Builtin

/-- Every function, in the order of the table. -/
def all : List Builtin :=
  [sin, cos, tan, asin, acos, atan, sinh, cosh, tanh, ln, log, sqrt, abs, exp,
   integrate, diff, sum, limit, det, dot, norm, mean, median, stddev, corr]

def name : Builtin → String
  | sin => "sin"
  | cos => "cos"
  | tan => "tan"
  | asin => "asin"
  | acos => "acos"
  | atan => "atan"
  | sinh => "sinh"
  | cosh => "cosh"
  | tanh => "tanh"
  | ln => "ln"
  | log => "log"
  | sqrt => "sqrt"
  | abs => "abs"
  | exp => "exp"
  | integrate => "integrate"
  | diff => "diff"
  | sum => "sum"
  | limit => "limit"
  | det => "det"
  | dot => "dot"
  | norm => "norm"
  | mean => "mean"
  | median => "median"
  | stddev => "stddev"
  | corr => "corr"

def ofName? (name : String) : Option Builtin := all.find? fun f => f.name == name

theorem ofName?_eq_some {name : String} {f : Builtin} : ofName? name = some f ↔ name = f.name := by
  constructor
  · intro h
    have hname : f.name = name := by simpa using List.find?_some h
    exact hname.symm
  · rintro rfl
    cases f <;> rfl

/-- The least and the greatest number of arguments. -/
def arity : Builtin → Nat × Nat
  | log => (1, 2)
  | integrate => (1, 4)
  | diff => (1, 3)
  | sum => (4, 4)
  | limit => (3, 3)
  | dot | corr => (2, 2)
  | _ => (1, 1)

def accepts (f : Builtin) (count : Nat) : Bool := f.arity.1 ≤ count && count ≤ f.arity.2

/-- How messages write the accepted number of arguments. -/
def arityText (f : Builtin) : String :=
  let (least, greatest) := f.arity
  if least = greatest then s!"{least}" else s!"{least} to {greatest}"

/-- Answered in closed form by the symbolic delegate, never numerically. -/
def isHigherOrder : Builtin → Bool
  | integrate | diff | sum | limit => true
  | _ => false

/-- Takes list literals instead of numbers. -/
def isArray : Builtin → Bool
  | det | dot | norm | mean | median | stddev | corr => true
  | _ => false

end Builtin
end Reckon
