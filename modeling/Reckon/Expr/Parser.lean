import Reckon.Builtin
import Reckon.Expr.Basic
import Reckon.Token.Lexer

/-!
Reading an expression from its tokens.

    sum       = product (('+' | '-') product)*
    product   = unary (('*' | '/') unary)*
    unary     = '-' unary | power
    power     = factorial ('^' unary)?
    factorial = primary '!'*
    primary   = number | variable | function '(' items ')' | '(' sum ')' | '[' items ']'
    items     = (sum (',' sum)*)?

A name with a bracket behind it must be a function's, and any other name must not be.

Every way back from a primary or an operand to a sum goes through `unary`. So `unary` recurses on
the nesting that is left, and every other production is a plain function of the `unary` one level
further in. A production answers with the subtree, its height, and the tokens it left.
-/

namespace Reckon.Parser

/-- How many signs, exponents and brackets may enclose an operand. -/
def maxNesting : Nat := 256

/-- The height of the tallest tree that is accepted. -/
def maxHeight : Nat := 512

/-- A tree with its height. -/
structure Subtree where
  expr : Expr
  height : Nat
deriving Inhabited

/-- Reads something off the front of the tokens and leaves the rest. -/
abbrev Production (α : Type) := List Token → Except Failure (α × List Token)

def peek : List Token → Token.Kind
  | [] => .stop
  | t :: _ => t.kind

def position : List Token → Nat
  | [] => 0
  | t :: _ => t.position

/-- A failure at the next token. -/
def fault (ts : List Token) (f : ParseFault) : Failure := .of (.parse (position ts) f)

def unexpected (ts : List Token) : Failure := fault ts (.unexpected (peek ts))

/-- A tree one level above subtrees of the given height, unless that is too tall. -/
def raise (expr : Expr) (below : Nat) (rest : List Token) : Except Failure (Subtree × List Token) :=
  if maxHeight < below + 1 then .error (fault rest .nestedTooDeeply)
  else .ok (⟨expr, below + 1⟩, rest)

/-- The rest behind the closing bracket of a group opened at `opened`. -/
def close (closer : Token.Kind) (opener : Char) (opened : Nat) (ts : List Token) :
    Except Failure (List Token) :=
  if peek ts = closer then .ok ts.tail
  else if peek ts = .stop then .error (.of (.parse opened (.unclosed opener)))
  else .error (unexpected ts)

/-- Entries separated by commas up to the closing bracket, in reverse behind those `found`, with
the height of the tallest. There are at most as many entries as tokens. -/
def entries (entry : Production Subtree) (closer : Token.Kind) (opener : Char) (opened : Nat) :
    Nat → List Expr → Nat → List Token → Except Failure ((List Expr × Nat) × List Token)
  | 0, _, _, ts => .error (unexpected ts)
  | bound + 1, found, height, ts => do
    let (next, rest) ← entry ts
    let found := next.expr :: found
    let height := max height next.height
    if peek rest = .comma then entries entry closer opener opened bound found height rest.tail
    else
      let rest ← close closer opener opened rest
      .ok ((found.reverse, height), rest)

/-- The items of a call or a list, whose opening bracket is already read. -/
def items (entry : Production Subtree) (closer : Token.Kind) (opener : Char) (opened : Nat) :
    Production (List Expr × Nat) := fun ts =>
  if peek ts = closer then .ok (([], 0), ts.tail)
  else entries entry closer opener opened ts.length [] 0 ts

/-- Operands joined by the operators that `operator?` accepts, grouped to the left. There are at
most as many operators as tokens. -/
def joined (operator? : Token.Kind → Option Operator) (operand : Production Subtree) :
    Nat → Subtree → Production Subtree
  | 0, left, ts => .ok (left, ts)
  | bound + 1, left, ts =>
    match operator? (peek ts) with
    | none => .ok (left, ts)
    | some op => do
      let (right, rest) ← operand ts.tail
      let (node, rest) ← raise (.binary op left.expr right.expr) (max left.height right.height) rest
      joined operator? operand bound node rest

def chain (operator? : Token.Kind → Option Operator) (operand : Production Subtree) :
    Production Subtree := fun ts => do
  let (first, rest) ← operand ts
  joined operator? operand rest.length first rest

def sumOperator? : Token.Kind → Option Operator
  | .plus => some .add
  | .minus => some .sub
  | _ => none

def productOperator? : Token.Kind → Option Operator
  | .star => some .mul
  | .slash => some .div
  | _ => none

def products (unary : Production Subtree) : Production Subtree := chain productOperator? unary

def sums (unary : Production Subtree) : Production Subtree := chain sumOperator? (products unary)

def primary (sum : Production Subtree) : Production Subtree
  | [] => .error (unexpected [])
  | t :: ts =>
    match t.kind with
    | .number value => .ok (⟨.number value, 1⟩, ts)
    | .identifier name =>
      if peek ts = .openParen then
        if Builtin.ofName? name = none then .error (fault (t :: ts) (.unknownFunction name))
        else do
          let ((args, height), rest) ← items sum .closeParen '(' (position ts) ts.tail
          raise (.call name args) height rest
      else if Builtin.ofName? name = none then .ok (⟨.var name, 1⟩, ts)
      else .error (fault (t :: ts) (.missingArgumentList name))
    | .openParen => do
      let (inner, rest) ← sum ts
      let rest ← close .closeParen '(' t.position rest
      .ok (inner, rest)
    | .openBracket => do
      let ((entries, height), rest) ← items sum .closeBracket '[' t.position ts
      raise (.list entries) height rest
    | _ => .error (unexpected (t :: ts))

/-- Apply the factorial signs that follow. -/
def factorials : Subtree → Production Subtree
  | node, [] => .ok (node, [])
  | node, t :: ts =>
    if t.kind = .bang then do
      let (node, _) ← raise (.factorial node.expr) node.height ts
      factorials node ts
    else .ok (node, t :: ts)

def power (unary : Production Subtree) : Production Subtree := fun ts => do
  let (atom, rest) ← primary (sums unary) ts
  let (base, rest) ← factorials atom rest
  if peek rest = .caret then
    let (exponent, rest) ← unary rest.tail
    raise (.binary .pow base.expr exponent.expr) (max base.height exponent.height) rest
  else .ok (base, rest)

/-- An operand with its signs, inside at most `nesting - 1` further enclosing constructs. -/
def unary : Nat → Production Subtree
  | 0 => fun ts => .error (fault ts .nestedTooDeeply)
  | nesting + 1 => fun ts =>
    if peek ts = .minus then do
      let (operand, rest) ← unary nesting ts.tail
      raise (.neg operand.expr) operand.height rest
    else power (unary nesting) ts

/-- A whole expression: nothing but `stop` may be left behind it. -/
def expression (ts : List Token) : Except Failure Subtree :=
  if peek ts = .stop then .error (fault ts .emptyExpression)
  else do
    let (node, rest) ← sums (unary maxNesting) ts
    if peek rest = .stop then .ok node else .error (unexpected rest)

end Reckon.Parser

namespace Reckon

/-- A tree read from text, with the number of tokens it was read from. -/
structure Parsed where
  expr : Expr
  tokenCount : Nat
deriving Inhabited

/-- Read the expression in a text whose first character has the given position. -/
def Expr.parseAt (position : Nat) (cs : List Char) : Except Failure Parsed := do
  let tokens ← Token.ofChars position cs
  let node ← Parser.expression tokens
  .ok ⟨node.expr, tokens.length - 1⟩

def Expr.parse (text : String) : Except Failure Parsed := Expr.parseAt 0 text.toList

end Reckon
