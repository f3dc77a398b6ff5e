import Reckon.Display
import Reckon.Failure

/-!
What an evaluation comes to: a number, a symbolic answer, or one of two kinds of failure, which are
values as well.
-/

namespace Reckon

inductive Outcome where
  | number (value : Binary64)
  /-- A closed form, its typeset rendering, and the expression it answers. -/
  | symbolic (result rendering asked : String)
  | error (message : String)
  | notImplemented (message : String)
deriving DecidableEq, Inhabited

namespace Outcome

/-- What the symbolic delegate does not support is not implemented; all else is an error. -/
def ofFailure (f : Failure) : Outcome :=
  if f.kind = .delegateUnsupported then notImplemented f.message else error f.message

def number? : Outcome → Option Binary64
  | number value => some value
  | _ => none

def symbolic? : Outcome → Option String
  | symbolic result _ _ => some result
  | _ => none

def failure? : Outcome → Option String
  | error message | notImplemented message => some message
  | _ => none

def isSuccess : Outcome → Bool
  | number _ | symbolic _ _ _ => true
  | _ => false

def typeName : Outcome → String
  | number _ => "Number"
  | symbolic _ _ _ => "Symbolic"
  | error _ => "Error"
  | notImplemented _ => "NotImplemented"

/-- The text shown for the outcome. -/
def display : Outcome → String
  | number value => Display.number value
  | symbolic result _ _ => result
  | error message => "Error: " ++ message
  | notImplemented message => "Not implemented: " ++ message

end Outcome
end Reckon
