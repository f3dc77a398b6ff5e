import Reckon.Calculator
import Reckon.Http
import Reckon.Json.Reader
import Reckon.Json.Writer

/-!
The evaluation service. One endpoint takes a document with a text and answers with a reply
document; every request is evaluated on its own, without a previous answer.
-/

namespace Reckon.Service

/-- A result as reply documents carry it. -/
inductive Value where
  | integer (n : Int)
  | float (x : Binary64)
  | text (s : String)
deriving DecidableEq

/-- Whole numbers of at most this magnitude, `2 ^ 53`, are written as integers. -/
def maxInteger : Nat := 9007199254740992

namespace Value

/-- Documents have no infinities and no NaN, so these are sent as their display text. -/
def ofNumber (x : Binary64) : Value :=
  let magnitude : Int := x.floorMagnitude
  if !x.isFinite then text (Display.number x)
  else if x.isWhole && magnitude ≤ maxInteger then
    integer (if x.isNegative then -magnitude else magnitude)
  else float x

def json : Value → Json
  | integer n => .number (.ofInt n)
  | float x => .number (.ofBinary64 x)
  | text s => .ofString s

end Value

inductive Reply where
  | success (expression : String) (result : Value)
  | failure (error : String)
deriving DecidableEq

namespace Reply

def ofEvaluation (ev : Evaluation) : Reply :=
  match ev.outcome with
  | .number x => success ev.expression (.ofNumber x)
  | .symbolic result _ _ => success ev.expression (.text result)
  | .error message => failure message
  | .notImplemented _ => failure ev.outcome.display

/-- The reply to a request that holds no text to evaluate. -/
def invalid (details : String) : Reply := failure ("Invalid request: " ++ details)

def json : Reply → Json
  | success expression result => .fields [("success", .bool true),
      ("expression", .ofString expression), ("result", result.json)]
  | failure error => .fields [("success", .bool false), ("error", .ofString error)]

end Reply

/-- The text of a request document: the field `text` of an object, or the only item of an array.
Other fields may hold anything, but the field must not be repeated and every field name must be
a text. -/
def requestText? : Json → Option String
  | .array [.string text] => text
  | .object fields =>
    match Json.named? fields "text" with
    | some [.string text] => text
    | _ => none
  | _ => none

inductive Response where
  /-- A status without a body. -/
  | empty (status : Nat)
  | reply (reply : Reply)
deriving DecidableEq

def Response.http : Response → Http.Response
  | empty status => ⟨status, []⟩
  | reply r => ⟨200, r.json.text.toUTF8.toList⟩

variable {m : Type → Type} [Monad m]

/-- The reply to a body of at most `limit` bytes, or to a longer one. -/
def replyTo (delegate : Delegate m) (limit : Nat) (body : List UInt8) : m Reply :=
  if limit < body.length then
    pure (.invalid "Failed to buffer the request body: length limit exceeded")
  else
    match (Json.read? body).bind requestText? with
    | some text => Reply.ofEvaluation <$> Calculator.evaluate delegate .empty text
    | none => pure (.invalid "malformed document")

/-- Any origin may ask in advance whether it may send a request; of the others, the endpoint
answers those with its path and its method. -/
def respond (delegate : Delegate m) (limit : Nat) (request : Http.Request) : m Response :=
  if request.method = "OPTIONS" then pure (.empty 200)
  else if request.path ≠ ['/'] then pure (.empty 404)
  else if request.method ≠ "POST" then pure (.empty 405)
  else .reply <$> replyTo delegate limit request.body

end Reckon.Service
