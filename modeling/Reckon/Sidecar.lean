import Reckon.Delegate
import Reckon.Expr.Printer
import Reckon.Http
import Reckon.Json.Codec
import Reckon.Text.Blank

/-!
The symbolic backend behind HTTP: a process that runs SymPy and has one path for each operation it
supports. Here is what it is sent, and how its replies are read.
-/

namespace Reckon

namespace Expr

/-- The tree in the backend's language: Euler's number has another name there, and a logarithm
without a base is the natural one, so base ten is spelled out. -/
def backendForm (e : Expr) : Expr :=
  e.transform fun
    | var "e" => var "E"
    | call "log" [arg] => call "log" [arg, number 10]
    | node => node

end Expr

namespace Sidecar

structure Client where
  baseUrl : String
  codec : Json.Codec

/-- Slashes at the end of the URL are dropped. -/
def Client.withCodec (codec : Json.Codec) (url : String) : Client :=
  ⟨String.ofList (Text.dropTailWhile (· == '/') url.toList), codec⟩

def Client.ofUrl : String → Client := Client.withCodec Json.strict

/-- The path of an operation, if the backend has one. -/
def endpoint : Request.Operation → Except String String
  | op@(.differentiate _ order) =>
    if order = 1 then .ok op.name
    else .error "Higher-order derivatives are not supported by the SymPy backend"
  | .integrate _ (some _) => .error "Definite integrals are not supported by the SymPy backend"
  | op@(.sum _ _ _) | op@(.limit _ _) =>
    .error (op.name ++ "() is not supported by the SymPy backend")
  | op => .ok op.name

/-- The document that asks for an operation on an expression. -/
def document (request : Request) : Json :=
  .fields (("expression", .ofString request.expression.backendForm.text) ::
    (request.op.variableName?.map fun name => ("variable", .ofString name)).toList)

def Client.post (client : Client) (path : String) (document : Json) : Http.Request :=
  ⟨"POST", client.baseUrl ++ "/" ++ path, client.codec.write document⟩

def Client.health (client : Client) : Http.Request := ⟨"GET", client.baseUrl ++ "/health", []⟩

/-- What a reply document says; absent and null are the same. -/
structure Fields where
  result : Option String
  latex : Option String
  elapsedMs : Option Binary64
  verified : Option Bool
  error : Option String
deriving DecidableEq

namespace Fields

/-- A field that is absent, null, or what `read?` makes of its value. The outer `none` is a field
of another type. -/
def optional {α : Type} (read? : Json → Option α) : Json → Option (Option α)
  | .null => some none
  | value => (read? value).map some

def text? : Json → Option String
  | .string text => text
  | _ => none

def bool? : Json → Option Bool
  | .bool b => some b
  | _ => none

/-- A number, as the codec takes it. -/
def float? (codec : Json.Codec) : Json → Option Binary64
  | .number n => codec.float? n
  | _ => none

/-- The value of a field that is given at most once. -/
def value? (fields : List (Option String × Json)) (name : String) : Option Json :=
  match Json.named? fields name with
  | some [] => some .null
  | some [value] => some value
  | _ => none

/-- Fields in the order in which an array lists them. -/
def ofItems? (codec : Json.Codec) (result latex elapsed verified error : Json) :
    Option Fields := do
  return {
    result := ← optional text? result
    latex := ← optional text? latex
    elapsedMs := ← optional (float? codec) elapsed
    verified := ← optional bool? verified
    error := ← optional text? error }

def ofJson? (codec : Json.Codec) : Json → Option Fields
  | .array [result, latex, elapsed, verified, error] =>
    ofItems? codec result latex elapsed verified error
  | .object fields => do
    ofItems? codec (← value? fields "result") (← value? fields "latex")
      (← value? fields "execution_time_ms") (← value? fields "verified") (← value? fields "error")
  | _ => none

/-- The answer or the failure that a successful reply stands for. -/
def reply (fields : Fields) : Reply :=
  match fields.error, fields.result with
  | some error, _ => .error (.backend error)
  | none, none => .error (.backend "symbolic reply has no result")
  | none, some result =>
    .ok ⟨result, fields.latex.getD result, fields.verified, fields.elapsedMs⟩

end Fields

/-- What a response comes to. The error text of its document is passed on, whatever its status. -/
def Client.read (client : Client) (response : Http.Response) : Reply :=
  let fields? := (client.codec.read? response.content).bind (Fields.ofJson? client.codec)
  if Http.isSuccess response.status then
    match fields? with
    | some fields => fields.reply
    | none => .error (.backend "malformed symbolic reply")
  else
    .error (.backend ((fields?.bind (·.error)).getD
      ("symbolic backend returned " ++ Http.statusText response.status)))

/-- The status that a health document reports. -/
def healthStatus? : Json → Option String
  | .array [.string status] => status
  | .object fields =>
    match Json.named? fields "status" with
    | some [.string status] => status
    | _ => none
  | _ => none

/-- Whether the backend reports itself online. -/
def Client.readHealth (client : Client) (response : Http.Response) :
    Except DelegateFailure Bool :=
  if !Http.isSuccess response.status then .ok false
  else match (client.codec.read? response.content).bind healthStatus? with
    | some status => .ok (status == "online")
    | none => .error (.backend "malformed health reply: unexpected document")

variable {m : Type → Type} [Monad m]

/-- A way to send a request, which fails where nothing answers. -/
abbrev Transport (m : Type → Type) := Http.Request → m (Except String Http.Response)

/-- The delegate that asks the backend. Operations it has no path for are refused unsent. -/
def Client.delegate (client : Client) (send : Transport m) : Delegate m := fun request =>
  match endpoint request.op with
  | .error message => pure (.error (.unsupported message))
  | .ok path => do
    match ← send (client.post path (document request)) with
    | .error details => return .error (.transport details)
    | .ok response => return client.read response

def Client.isOnline (client : Client) (send : Transport m) : m (Except DelegateFailure Bool) := do
  match ← send client.health with
  | .error details => return .error (.transport details)
  | .ok response => return client.readHealth response

end Sidecar
end Reckon
