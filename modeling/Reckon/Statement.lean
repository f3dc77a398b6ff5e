import Reckon.Expr.Parser

/-!
Statements: a plain expression, or an equation of two expressions around a single `=`. Any other
number of `=` is left to the expression parser, which has no token for it.
-/

namespace Reckon

inductive Statement where
  | expression (parsed : Parsed)
  | equation (lhs rhs : Parsed)
deriving Inhabited

namespace Statement

def ofChars (cs : List Char) : Except Failure Statement :=
  if cs.count '=' = 1 then
    let left := cs.takeWhile (· != '=')
    let right := cs.drop (left.length + 1)
    if left.all Text.isBlank then .error (.of (.parse left.length .missingLeftSide))
    else if right.all Text.isBlank then .error (.of (.parse left.length .missingRightSide))
    else do
      let lhs ← Expr.parseAt 0 left
      let rhs ← Expr.parseAt (left.length + 1) right
      .ok (.equation lhs rhs)
  else (Expr.parseAt 0 cs).map expression

def parse (text : String) : Except Failure Statement := ofChars text.toList

end Statement
end Reckon
