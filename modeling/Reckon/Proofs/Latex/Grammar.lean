import Reckon.Builtin
import Reckon.Expr.Printer
import Reckon.Proofs.Latex.Markup
import Reckon.Proofs.Token.Numerals

/-!
Expressions in LaTeX notation: what they mean, how they are written, and what the text
says once its fractions are expanded. A fraction means one operand; its expansion is a
quotient that belongs to whatever stands around it.
-/

namespace Reckon.Latex

/-- An expression as it is structured by its text, parentheses included. -/
inductive Term where
  | number (value : Binary64)
  | var (name : String)
  | binary (op : Operator) (left right : Term)
  | neg (operand : Term)
  | group (inner : Term)
  | frac (above below : Term)
  | root (body : Term)

/-- A product or quotient as the text goes on: its head, and what it is divided by. -/
structure Parts where
  lead : Expr
  divisors : List Expr

namespace Parts

/-- The tree of the whole. -/
def tree (p : Parts) : Expr := p.divisors.foldl (.binary .div) p.lead

/-- An exponent takes the last factor in front of it, and gives its head. -/
def power (p q : Parts) : Parts :=
  match p.divisors with
  | [] => ⟨.binary .pow p.lead q.lead, q.divisors⟩
  | d :: ds => ⟨p.lead, (d :: ds).dropLast ++
      .binary .pow ((d :: ds).getLast (by simp)) q.lead :: q.divisors⟩

end Parts

namespace Term

/-- What the expression means: a fraction is the quotient of its parts, as one operand. -/
def denote : Term → Expr
  | number value => .number value
  | var name => .var name
  | binary op l r => .binary op l.denote r.denote
  | neg t => .neg t.denote
  | group t => t.denote
  | frac above below => .binary .div above.denote below.denote
  | root t => .call "sqrt" [t.denote]

/-- What the expanded text says. An operand gives its head to the operator or the sign
in front of it, and what it is divided by to the product it stands in. -/
def parts : Term → Parts
  | number value => ⟨.number value, []⟩
  | var name => ⟨.var name, []⟩
  | binary .pow l r => l.parts.power r.parts
  | binary .mul l r => ⟨.binary .mul l.parts.tree r.parts.lead, r.parts.divisors⟩
  | binary .div l r => ⟨.binary .div l.parts.tree r.parts.lead, r.parts.divisors⟩
  | binary op l r => ⟨.binary op l.parts.tree r.parts.tree, []⟩
  | neg t => ⟨.neg t.parts.lead, t.parts.divisors⟩
  | group t => ⟨t.parts.tree, []⟩
  | frac above below => ⟨above.parts.tree, [below.parts.tree]⟩
  | root t => ⟨.call "sqrt" [t.parts.tree], []⟩

/-- The tree that the expanded text is read as. -/
def read (t : Term) : Expr := t.parts.tree

def isFraction : Term → Bool
  | frac _ _ => true
  | _ => false

/-- No fraction is multiplied by, divided by, under a sign, or base or exponent of a
power, unless it stands in parentheses. -/
def Settled : Term → Prop
  | number _ | var _ => True
  | binary .add l r | binary .sub l r => l.Settled ∧ r.Settled
  | binary .mul l r | binary .div l r => r.isFraction = false ∧ l.Settled ∧ r.Settled
  | binary .pow l r => l.isFraction = false ∧ r.isFraction = false ∧ l.Settled ∧ r.Settled
  | neg t => t.isFraction = false ∧ t.Settled
  | group t | root t => t.Settled
  | frac above below => above.Settled ∧ below.Settled

/-- How many parentheses, groups, signs and exponents enclose the innermost operand. -/
def nesting : Term → Nat
  | number _ | var _ => 0
  | binary .pow l r => max l.nesting (r.nesting + 1)
  | binary _ l r => max l.nesting r.nesting
  | neg t | group t | root t => t.nesting + 1
  | frac above below => max above.nesting below.nesting + 1

end Term

/-- The forms of a text, those with the loosest operators first. An inner text may have
blanks around it. -/
inductive Level where
  | inner
  | sum
  | product
  | unary
  | power
  | primary
deriving DecidableEq

/-- The sign of an operator, between blanks. -/
def sign (op : Operator) (gap gap' : List Blank) : Markup :=
  .ofBlanks gap ++ (.word op.symbol (by cases op <;> decide) ++ .ofBlanks gap')

open Markup in
/-- The text is an expression of the given form. Numerals and names are those of the
lexer; a name is no function's, and `π`, which stands for one, is no part of it. -/
inductive Written : Level → Term → Markup → Prop where
  | inner {t m} (gap gap' : List Blank) : Written .sum t m →
      Written .inner t (ofBlanks gap ++ (m ++ ofBlanks gap'))
  | ofProduct {t m} : Written .product t m → Written .sum t m
  | sum {op l r m m'} (gap gap' : List Blank) : op = .add ∨ op = .sub →
      Written .sum l m → Written .product r m' →
      Written .sum (.binary op l r) (m ++ (sign op gap gap' ++ m'))
  | ofUnary {t m} : Written .unary t m → Written .product t m
  | product {op l r m m'} (gap gap' : List Blank) : op = .mul ∨ op = .div →
      Written .product l m → Written .unary r m' →
      Written .product (.binary op l r) (m ++ (sign op gap gap' ++ m'))
  | ofPower {t m} : Written .power t m → Written .unary t m
  | neg {t m} (gap : List Blank) : Written .unary t m →
      Written .unary (.neg t) (word "-" (by decide) ++ (ofBlanks gap ++ m))
  | ofPrimary {t m} : Written .primary t m → Written .power t m
  | power {l r m m'} (gap gap' : List Blank) : Written .primary l m → Written .unary r m' →
      Written .power (.binary .pow l r) (m ++ (sign .pow gap gap' ++ m'))
  | number {letters : List Letter} {value} : Numeral.Denotes letters.unattach value →
      Written .primary (.number value) (ofLetters letters)
  | var {letters : List Letter} {name : String} : letters.unattach = name.toList →
      Token.IsName name.toList → Builtin.ofName? name = none → 'π' ∉ name.toList →
      Written .primary (.var name) (ofLetters letters)
  | group {t m} : Written .inner t m →
      Written .primary (.group t) (word "(" (by decide) ++ (m ++ word ")" (by decide)))
  | frac {above below m m'} (gap gap' : List Blank) : Written .inner above m →
      Written .inner below m' →
      Written .primary (.frac above below) (.frac gap gap' m m' .done)
  | root {t m} (gap : List Blank) : Written .inner t m →
      Written .primary (.root t) (.root gap m .done)

end Reckon.Latex
