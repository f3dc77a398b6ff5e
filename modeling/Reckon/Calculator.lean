import Reckon.Delegate
import Reckon.Expr.Eval
import Reckon.Expr.Printer
import Reckon.Metrics
import Reckon.Normalize
import Reckon.Outcome
import Reckon.Statement

/-!
From text to outcome. A text is normalised and read; a plain expression is evaluated numerically,
and what has no numeric value but a closed form, or is an equation, is put to the symbolic delegate
in a single request. Which of these happens is decided without the delegate, by a plan.
-/

namespace Reckon

/-- The variable of a request that names none. -/
def defaultVariable : String := "x"

namespace Expr

/-- Bound variables replaced by their values. -/
def bind (b : Bindings) (e : Expr) : Expr := e.substitute fun name => (b.get? name).map number

/-- The first variable that is no constant, not the previous answer and not bound. -/
def firstFree? (b : Bindings) (e : Expr) : Option String :=
  e.variableNames.find? fun name =>
    name != answerName && (constant? name).isNone && (b.get? name).isNone

end Expr

namespace Request

/-- The variable that a call names as its second argument. -/
def variableArgument (func : String) (args : List Expr) : Except Failure String :=
  match args[1]? with
  | none => .ok defaultVariable
  | some arg =>
    match arg with
    | .var name =>
      if (constant? name).isNone then .ok name
      else .error (.of (.argument (.expectedVariable func arg.text)))
    | _ => .error (.of (.argument (.expectedVariable func arg.text)))

def requiredArgument (f : Builtin) (args : List Expr) (index : Nat) : Except Failure Expr :=
  match args[index]? with
  | some arg => .ok arg
  | none => .error (.of (.argument (.count f.name f.arityText args.length)))

/-- The largest order of a derivative; greater ones are cut down to it. -/
def maxOrder : Nat := UInt32.size - 1

/-- The order that a derivative names as its third argument. -/
def orderArgument (args : List Expr) : Except Failure Nat :=
  match args[2]? with
  | none => .ok 1
  | some arg =>
    match arg with
    | .number n =>
      if n ≥ 1 && n.isWhole then .ok (min n.floorMagnitude maxOrder)
      else .error (.of (.argument (.derivativeOrder arg.text)))
    | _ => .error (.of (.argument (.derivativeOrder arg.text)))

/-- The operation that a call of a higher-order function asks for. -/
def operationOf (f : Builtin) (args : List Expr) (name : String) :
    Except Failure Operation :=
  match f with
  | .diff => do return .differentiate name (← orderArgument args)
  | .integrate =>
    match args with
    | [_] | [_, _] => .ok (.integrate name none)
    | [_, _, lower, upper] => .ok (.integrate name (some (lower, upper)))
    | _ => .error (.of (.argument (.count f.name "1, 2 or 4" args.length)))
  | .sum => do
    let lower ← requiredArgument f args 2
    let upper ← requiredArgument f args 3
    return .sum name lower upper
  | .limit => do return .limit name (← requiredArgument f args 2)
  | _ => .error (.of (.needsSymbolic f.name))

def notOutermost : Failure :=
  .of (.delegateUnsupported
    "integrate, diff, sum and limit are only supported as the outermost call")

/-- The request that an expression makes if it is a call of a higher-order function. -/
def ofCall : Expr → Except Failure Request
  | .call func args =>
    match (Builtin.ofName? func).filter Builtin.isHigherOrder with
    | none => .error notOutermost
    | some f =>
      match args with
      | [] => .error (.of (.argument (.count func "at least 1" 0)))
      | body :: _ => do
        let name ← variableArgument func args
        let op ← operationOf f args name
        return ⟨op, body⟩
  | _ => .error notOutermost

end Request

/-- What is left to do once a text is read: nothing, or to ask the delegate. -/
inductive Plan where
  | settled (outcome : Outcome)
  | ask (request : Request)
deriving Inhabited

namespace Plan

/-- Ask with bound variables replaced by their values. The previous answer may not stay open. -/
def request (b : Bindings) (op : Request.Operation) (e : Expr) : Plan :=
  if b.answer?.isNone && e.mentions answerName then settled (.ofFailure (.of .noPreviousAnswer))
  else ask ⟨op, e.bind b⟩

/-- A number if there is one, and a request if only symbolic evaluation can help. -/
def ofExpression (b : Bindings) (e : Expr) : Plan :=
  match e.eval b with
  | .ok value => settled (.number value)
  | .error f =>
    if f.kind = .unsupportedForm then
      match Request.ofCall e with
      | .ok ⟨op, body⟩ => request b op body
      | .error f => settled (.ofFailure f)
    else settled (.ofFailure f)

/-- An equation is solved for its first free variable, or verified if it has none. -/
def ofEquation (b : Bindings) (lhs rhs : Expr) : Plan :=
  let difference := Expr.binary .sub lhs rhs
  match difference.firstFree? b with
  | some name => request b (.solve name) difference
  | none => request b .verify difference

def ofStatement (b : Bindings) : Statement → Plan
  | .expression parsed => ofExpression b parsed.expr
  | .equation lhs rhs => ofEquation b lhs.expr rhs.expr

end Plan

/-- The outcome of a reply. An operation to verify is answered by its verdict, if there is one. -/
def Outcome.ofReply (asked : String) (op : Request.Operation) : Reply → Outcome
  | .error f => .ofFailure f.toFailure
  | .ok answer =>
    let result := match op, answer.verified with
      | .verify, some verdict => toString verdict
      | _, _ => canonicalPower answer.result
    .symbolic result answer.latex asked

/-- An estimate of the memory that the tokens, the one at the end among them, and the tree take. -/
def Parsed.approxBytes (sizes : Sizes) (p : Parsed) : Nat :=
  (p.tokenCount + 1) * sizes.token + p.expr.nodeCount * sizes.node

structure Evaluation where
  /-- The text that was evaluated. -/
  source : String
  /-- The same text, normalised. -/
  expression : String
  outcome : Outcome
  /-- The trees that were read. -/
  parsed : List Parsed
  /-- The phases that were gone through. -/
  phases : List Phase
deriving Inhabited

namespace Evaluation

/-- The number of nodes of all trees that were read. -/
def nodes (ev : Evaluation) : Nat := ev.parsed.foldl (fun count p => count + p.expr.nodeCount) 0

/-- The measurements of the evaluation, given what it took. -/
def metrics (ev : Evaluation) (sizes : Sizes) (took : Times) : Metrics :=
  let observe (m : Metrics) (p : Parsed) : Metrics :=
    m.observe (.ofNat p.expr.nodeCount) (.ofNat (p.approxBytes sizes))
  let charge (m : Metrics) (phase : Phase) : Metrics := m.charge phase (took.ofPhase phase)
  let parsed := ev.parsed.foldl observe (.start ev.source)
  { ev.phases.foldl charge parsed with totalMs := took.total }

end Evaluation

namespace Calculator

variable {m : Type → Type} [Monad m]

/-- Carry a plan out. -/
def carryOut (delegate : Delegate m) (ev : Evaluation) : Plan → m Evaluation
  | .settled outcome => pure { ev with outcome := outcome }
  | .ask request => do
    let reply ← delegate request
    let phases := match reply with
      | .ok _ => [Phase.delegate, .conversion]
      | .error _ => [.delegate]
    pure { ev with
      outcome := .ofReply ev.expression request.op reply
      phases := ev.phases ++ phases }

/-- Evaluate loose text. -/
def evaluate (delegate : Delegate m) (b : Bindings) (text : String) : m Evaluation :=
  let expression := normalize text
  match Statement.parse expression with
  | .error f => pure ⟨text, expression, .ofFailure f, [], [.parse]⟩
  | .ok statement =>
    let (parsed, phases) := match statement with
      | .expression parsed => ([parsed], [.parse, .eval])
      | .equation lhs rhs => ([lhs, rhs], [.parse])
    carryOut delegate ⟨text, expression, default, parsed, phases⟩ (.ofStatement b statement)

/-- Put loose text to the delegate with an operation of the caller's choice. -/
def solve (delegate : Delegate m) (b : Bindings) (op : Request.Operation) (text : String) :
    m Evaluation :=
  let expression := normalize text
  match Expr.parse expression with
  | .error f => pure ⟨text, expression, .ofFailure f, [], [.parse]⟩
  | .ok parsed =>
    carryOut delegate ⟨text, expression, default, [parsed], [.parse]⟩
      (.request b op parsed.expr)

end Calculator
end Reckon
