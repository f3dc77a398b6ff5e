import Reckon.Expr.Parser

/-!
The descent as it is carried out, with the tokens that are left and a counter of the enclosing
constructs. Whether it ends is open: its calls may be nested as deep and its loops may take as many
turns as it is given, and beyond that it has no outcome. Every call of a production is noted when it
returns, with what it found, and with the tokens and the depth before and after.
-/

namespace Reckon.Descent
open Reckon.Parser

variable {α β : Type}

/-- A call of a production that has returned: the tokens and the depth it was entered with, what it
found, and the tokens and the depth it was left with. -/
structure Call where
  entered : List Token
  depth : Nat
  outcome : Except Failure (List Expr × Nat)
  left : List Token
  depthLeft : Nat

/-- The tokens that are left, the number of enclosing constructs, and the calls, last one first. -/
structure Machine where
  rest : List Token
  depth : Nat
  calls : List Call

/-- Work on a machine that ends with a result or a failure, if it ends. -/
abbrev Run (α : Type) := ExceptT Failure (StateT Machine Option) α

/-- Work that was not given enough frames or turns. -/
def exhausted : Run α := fun _ => none

/-- A call of a production. It is noted when it returns, be it with a failure. -/
def called (found : α → List Expr × Nat) (body : Run α) : Run α := ExceptT.mk do
  let entered ← get
  let outcome ← body.run
  modify fun m => { m with
    calls := ⟨entered.rest, entered.depth, outcome.map found, m.rest, m.depth⟩ :: m.calls }
  return outcome

/-- Work inside one more enclosing construct. The counter goes back down however it ends. -/
def deeper (body : Run α) : Run α := ExceptT.mk do
  modify fun m => { m with depth := m.depth + 1 }
  let outcome ← body.run
  modify fun m => { m with depth := m.depth - 1 }
  return outcome

/-- What a production with one tree finds. -/
def single (node : Subtree) : List Expr × Nat := ([node.expr], node.height)

def next : Run Token.Kind := return peek (← get).rest

def advance : Run Unit := modify fun m => { m with rest := m.rest.tail }

def unexpected : Run α := do throw (Parser.unexpected (← get).rest)

/-- A tree one level above subtrees of the given height, unless that is too tall. -/
def grow (expr : Expr) (below : Nat) : Run Subtree := do
  if maxHeight < below + 1 then throw (fault (← get).rest .nestedTooDeeply)
  else return ⟨expr, below + 1⟩

/-- Take the closing bracket of a group opened at `opened`. -/
def closing (closer : Token.Kind) (opener : Char) (opened : Nat) : Run Unit := do
  if (← next) = closer then advance
  else if (← next) = .stop then throw (.of (.parse opened (.unclosed opener)))
  else unexpected

def joined (operator? : Token.Kind → Option Operator) (operand : Run Subtree) :
    Nat → Subtree → Run Subtree
  | 0, _ => exhausted
  | turns + 1, left => do
    match operator? (← next) with
    | none => return left
    | some op =>
      advance
      let right ← operand
      let node ← grow (.binary op left.expr right.expr) (max left.height right.height)
      joined operator? operand turns node

def chain (operator? : Token.Kind → Option Operator) (turns : Nat) (operand : Run Subtree) :
    Run Subtree := called single do
  let first ← operand
  joined operator? operand turns first

def product (turns : Nat) (unary : Run Subtree) : Run Subtree :=
  chain productOperator? turns unary

def sum (turns : Nat) (unary : Run Subtree) : Run Subtree :=
  chain sumOperator? turns (product turns unary)

def entries (sum : Run Subtree) (closer : Token.Kind) (opener : Char) (opened : Nat) :
    Nat → List Expr → Nat → Run (List Expr × Nat)
  | 0, _, _ => exhausted
  | turns + 1, found, height => do
    let entry ← sum
    let found := entry.expr :: found
    let height := max height entry.height
    if (← next) = .comma then
      advance
      entries sum closer opener opened turns found height
    else
      closing closer opener opened
      return (found.reverse, height)

def items (turns : Nat) (sum : Run Subtree) (closer : Token.Kind) (opener : Char) (opened : Nat) :
    Run (List Expr × Nat) := called id do
  if (← next) = closer then
    advance
    return ([], 0)
  else entries sum closer opener opened turns [] 0

def primary (turns : Nat) (sum : Run Subtree) : Run Subtree := called single do
  let ts := (← get).rest
  match peek ts with
  | .number value =>
    advance
    return ⟨.number value, 1⟩
  | .identifier name =>
    advance
    if (← next) = .openParen then
      if Builtin.ofName? name = none then throw (fault ts (.unknownFunction name))
      else
        let opened := position (← get).rest
        advance
        let (args, height) ← items turns sum .closeParen '(' opened
        grow (.call name args) height
    else if Builtin.ofName? name = none then return ⟨.var name, 1⟩
    else throw (fault ts (.missingArgumentList name))
  | .openParen =>
    advance
    let inner ← sum
    closing .closeParen '(' (position ts)
    return inner
  | .openBracket =>
    advance
    let (entries, height) ← items turns sum .closeBracket '[' (position ts)
    grow (.list entries) height
  | _ => unexpected

def factorials : Nat → Subtree → Run Subtree
  | 0, _ => exhausted
  | turns + 1, node => do
    if (← next) = .bang then
      advance
      let node ← grow (.factorial node.expr) node.height
      factorials turns node
    else return node

def factorial (turns : Nat) (sum : Run Subtree) : Run Subtree := called single do
  let atom ← primary turns sum
  factorials turns atom

def power (turns : Nat) (unary : Run Subtree) : Run Subtree := called single do
  let base ← factorial turns (sum turns unary)
  if (← next) = .caret then
    advance
    let exponent ← unary
    grow (.binary .pow base.expr exponent.expr) (max base.height exponent.height)
  else return base

/-- The production that every way back to a sum goes through, and the only one that looks at the
depth. Its calls have so many frames to be nested in. -/
def unary (turns : Nat) : Nat → Run Subtree
  | 0 => exhausted
  | frames + 1 => called single do
    let m ← get
    if maxNesting ≤ m.depth then throw (fault m.rest .nestedTooDeeply)
    else deeper do
      if (← next) = .minus then
        advance
        let operand ← unary turns frames
        grow (.neg operand.expr) operand.height
      else power turns (unary turns frames)

def expression (turns frames : Nat) : Run Subtree := do
  let ts := (← get).rest
  if peek ts = .stop then throw (fault ts .emptyExpression)
  else
    let node ← sum turns (unary turns frames)
    if (← next) = .stop then return node else unexpected

/-- The outcome of a text with the calls that were made, if the work ends. -/
def parseAt (turns frames position : Nat) (cs : List Char) :
    Option (Except Failure Parsed × List Call) :=
  match Token.ofChars position cs with
  | .error f => some (.error f, [])
  | .ok tokens => do
    let (outcome, m) ← expression turns frames ⟨tokens, 0, []⟩
    return (outcome.map fun node => ⟨node.expr, tokens.length - 1⟩, m.calls)

section Execution

variable {p : Run α} {f : α → Run β} {m m' : Machine}

theorem bind_apply (p : Run α) (f : α → Run β) (m : Machine) :
    (p >>= f) m = (p m).bind fun ended => ExceptT.bindCont f ended.1 ended.2 := rfl

theorem bind_of_ok {x : α} (h : p m = some (.ok x, m')) : (p >>= f) m = f x m' := by
  rw [bind_apply, h]
  rfl

theorem bind_of_error {failure : Failure} (h : p m = some (.error failure, m')) :
    (p >>= f) m = some (.error failure, m') := by
  rw [bind_apply, h]
  rfl

theorem get_bind (g : Machine → Run β) (m : Machine) : ((get : Run Machine) >>= g) m = g m m := rfl

theorem next_bind (g : Token.Kind → Run β) (m : Machine) : (next >>= g) m = g (peek m.rest) m :=
  rfl

theorem advance_bind (g : Unit → Run β) (m : Machine) :
    (advance >>= g) m = g () { m with rest := m.rest.tail } := rfl

/-- Work that ends began with work that ended, and went on with its result if it had one. -/
theorem bind_cases {outcome : Except Failure β} (h : (p >>= f) m = some (outcome, m')) :
    (∃ x m'', p m = some (.ok x, m'') ∧ f x m'' = some (outcome, m')) ∨
      ∃ failure, p m = some (.error failure, m') ∧ outcome = .error failure := by
  rw [bind_apply] at h
  obtain ⟨⟨ended | x, m''⟩, hp, hrest⟩ := Option.bind_eq_some_iff.1 h
  · obtain ⟨rfl, rfl⟩ := Prod.mk.inj (Option.some.inj hrest)
    exact .inr ⟨ended, hp, rfl⟩
  · exact .inl ⟨x, m'', hp, hrest⟩

/-- The machine when a call returns. -/
def returned (m m' : Machine) (outcome : Except Failure (List Expr × Nat)) : Machine :=
  { m' with calls := ⟨m.rest, m.depth, outcome, m'.rest, m'.depth⟩ :: m'.calls }

theorem called_apply (found : α → List Expr × Nat) (p : Run α) (m : Machine) :
    called found p m = (p m).bind fun ended =>
      some (ended.1, returned m ended.2 (ended.1.map found)) := rfl

theorem called_eq {found : α → List Expr × Nat} {outcome : Except Failure α}
    (h : p m = some (outcome, m')) :
    called found p m = some (outcome, returned m m' (outcome.map found)) := by
  rw [called_apply, h]
  rfl

/-- A call that returns is noted, and it is the last one so far. -/
theorem head?_calls_called {found : α → List Expr × Nat} {outcome : Except Failure α}
    (h : called found p m = some (outcome, m')) :
    m'.calls.head? = some ⟨m.rest, m.depth, outcome.map found, m'.rest, m'.depth⟩ := by
  rw [called_apply] at h
  obtain ⟨ended, -, hended⟩ := Option.bind_eq_some_iff.1 h
  obtain ⟨rfl, rfl⟩ := Prod.mk.inj (Option.some.inj hended)
  rfl

theorem deeper_eq {outcome : Except Failure α}
    (h : p { m with depth := m.depth + 1 } = some (outcome, m')) :
    deeper p m = some (outcome, { m' with depth := m'.depth - 1 }) := by
  have hdeeper : deeper p m = (p { m with depth := m.depth + 1 }).bind fun ended =>
      some (ended.1, { ended.2 with depth := ended.2.depth - 1 }) := rfl
  rw [hdeeper, h]
  rfl

end Execution

end Reckon.Descent
