import Reckon.Decimal.Shortest

/-!
Tokens of expression text. A token keeps the character offset at which it starts; the last token
of a text is `stop`, at the offset of the end.
-/

namespace Reckon

inductive Token.Kind where
  | number (value : Binary64)
  | identifier (name : String)
  | plus
  | minus
  | star
  | slash
  | caret
  | bang
  | openParen
  | closeParen
  | openBracket
  | closeBracket
  | comma
  | stop
deriving DecidableEq

structure Token where
  kind : Token.Kind
  position : Nat
deriving DecidableEq

namespace Token.Kind

/-- The kind of a token that is one character long. -/
def ofChar? : Char → Option Kind
  | '+' => some plus
  | '-' => some minus
  | '*' => some star
  | '/' => some slash
  | '^' => some caret
  | '!' => some bang
  | '(' => some openParen
  | ')' => some closeParen
  | '[' => some openBracket
  | ']' => some closeBracket
  | ',' => some comma
  | _ => none

/-- How a message names the token. -/
def describe : Kind → String
  | number value => "number " ++ Decimal.plain value
  | identifier name => "'" ++ name ++ "'"
  | plus => "'+'"
  | minus => "'-'"
  | star => "'*'"
  | slash => "'/'"
  | caret => "'^'"
  | bang => "'!'"
  | openParen => "'('"
  | closeParen => "')'"
  | openBracket => "'['"
  | closeBracket => "']'"
  | comma => "','"
  | stop => "end of input"

end Token.Kind
end Reckon
