import Reckon.Expr.Basic
import Reckon.Failure

/-!
The boundary to symbolic evaluation. A delegate is asked one request at a time and answers it or
fails; what it does meanwhile is up to the monad it runs in.
-/

namespace Reckon

/-- What a delegate may be asked to do with an expression. -/
inductive Request.Operation where
  | simplify
  | evaluate
  /-- Is the expression zero everywhere? -/
  | verify
  | solve (name : String)
  | differentiate (name : String) (order : Nat)
  | integrate (name : String) (bounds : Option (Expr × Expr))
  | sum (name : String) (lower upper : Expr)
  | limit (name : String) (point : Expr)
deriving Inhabited

namespace Request.Operation

def name : Operation → String
  | simplify => "simplify"
  | evaluate => "evaluate"
  | verify => "verify"
  | solve _ => "solve"
  | differentiate _ _ => "differentiate"
  | integrate _ _ => "integrate"
  | sum _ _ _ => "sum"
  | limit _ _ => "limit"

def variableName? : Operation → Option String
  | solve v | differentiate v _ | integrate v _ | sum v _ _ | limit v _ => some v
  | simplify | evaluate | verify => none

end Request.Operation

structure Request where
  op : Request.Operation
  expression : Expr
deriving Inhabited

structure Answer where
  result : String
  /-- The typeset rendering. -/
  latex : String
  /-- Whether an expression to verify is zero, if the delegate says so. -/
  verified : Option Bool
  /-- The time the delegate reports for its own work. -/
  backendMs : Option Binary64
deriving DecidableEq

inductive DelegateFailure where
  | timeout
  | transport (details : String)
  | backend (message : String)
  | unsupported (message : String)
deriving DecidableEq, Repr

/-- A delegate's reply to a request. -/
abbrev Reply := Except DelegateFailure Answer

abbrev Delegate (m : Type → Type) := Request → m Reply

namespace DelegateFailure

def message : DelegateFailure → String
  | timeout => "symbolic evaluation timed out"
  | transport details => "symbolic backend unreachable: " ++ details
  | backend message | unsupported message => message

def toFailure : DelegateFailure → Failure
  | timeout => .of .delegateTimeout
  | unsupported message => .of (.delegateUnsupported message)
  | other => .of (.delegateFailure other.message)

end DelegateFailure

/-- The delegate of a calculator without symbolic evaluation. -/
def unavailable {m : Type → Type} [Pure m] : Delegate m := fun request =>
  pure (.error (.unsupported
    (request.op.name ++ " needs symbolic evaluation, which is not available")))

end Reckon
