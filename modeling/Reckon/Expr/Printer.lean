import Reckon.Decimal.Shortest
import Reckon.Expr.Basic

/-!
The text of an expression tree, with the fewest parentheses that still read as the same tree. Each
tree has a binding strength, and a child is grouped when it binds more weakly than its place asks.
-/

namespace Reckon.Operator

def symbol : Operator → String
  | add => "+"
  | sub => "-"
  | mul => "*"
  | div => "/"
  | pow => "^"

def strength : Operator → Nat
  | add | sub => 1
  | mul | div => 2
  | pow => 4

end Reckon.Operator

namespace Reckon.Expr

/-- The strength of a negation. -/
def negStrength : Nat := 3

/-- The strength of a factorial, and the least a power asks of its base. -/
def factorialStrength : Nat := 5

/-- A number with a negative sign reads as a negation. -/
def strength : Expr → Nat
  | binary op _ _ => op.strength
  | neg _ => negStrength
  | factorial _ => factorialStrength
  | number value => if value.isNegative then negStrength else 6
  | _ => 6

def group (grouped : Bool) (text : List Char) : List Char :=
  if grouped then '(' :: text ++ [')'] else text

mutual

/-- The characters of the tree's text. The operators other than the power associate to the left,
so only their right operand must bind more strongly than they do. -/
def print : Expr → List Char
  | number value => Decimal.plainChars value
  | var name => name.toList
  | binary .pow left right =>
    group (left.strength < factorialStrength) left.print ++
      '^' :: group (right.strength < negStrength) right.print
  | binary op left right =>
    group (left.strength < op.strength) left.print ++
      ' ' :: op.symbol.toList ++ ' ' :: group (right.strength < op.strength + 1) right.print
  | neg operand => '-' :: group (operand.strength < negStrength) operand.print
  | factorial operand => group (operand.strength < factorialStrength) operand.print ++ ['!']
  | call func args => func.toList ++ '(' :: printItems args ++ [')']
  | list items => '[' :: printItems items ++ [']']

/-- Items with a comma and a blank between them. -/
def printItems : List Expr → List Char
  | [] => []
  | [e] => e.print
  | e :: es => e.print ++ ',' :: ' ' :: printItems es

end

def text (e : Expr) : String := String.ofList e.print

end Reckon.Expr
