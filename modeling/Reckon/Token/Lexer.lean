import Reckon.Failure
import Reckon.Text.Blank
import Reckon.Text.Numeric
import Reckon.Token.Numeral

/-!
Cutting a text into tokens. Blanks separate and are dropped; every other character belongs to
exactly one token, and each token is the longest one that starts at its position.
-/

namespace Reckon.Token

def startsIdentifier (c : Char) : Bool := Text.isAlphabetic c || c == '_'

def continuesIdentifier (c : Char) : Bool := Text.isAlphanumeric c || c == '_'

/-- The token that starts with `c` and goes on in `rest`, with the number of characters it takes
from `rest`. -/
def lexeme (c : Char) (rest : List Char) : Except ParseFault (Kind × Nat) :=
  if Numeral.starts (c :: rest) then
    let numeral := Numeral.read (c :: rest)
    if numeral.value.bits = Binary64.infinity then
      .error (.numberOutOfRange (String.ofList numeral.text))
    else .ok (.number numeral.value.toBinary64, numeral.text.length - 1)
  else if startsIdentifier c then
    let tail := rest.takeWhile continuesIdentifier
    .ok (.identifier (String.ofList (c :: tail)), tail.length)
  else match Kind.ofChar? c with
    | some kind => .ok (kind, 0)
    | none => .error (.unexpectedCharacter c)

/-- Go through the text one character at a time; `pending` characters still belong to the last
token, and `found` holds the tokens so far, last one first. -/
def scan (pending position : Nat) (found : List Token) : List Char → Except Failure (List Token)
  | [] => .ok (⟨.stop, position⟩ :: found).reverse
  | c :: rest =>
    match pending with
    | more + 1 => scan more (position + 1) found rest
    | 0 =>
      if Text.isBlank c then scan 0 (position + 1) found rest
      else match lexeme c rest with
        | .error fault => .error (.of (.parse position fault))
        | .ok (kind, more) => scan more (position + 1) (⟨kind, position⟩ :: found) rest

/-- The tokens of a text whose first character has the given position; `stop` is the last. -/
def ofChars (position : Nat) (cs : List Char) : Except Failure (List Token) :=
  scan 0 position [] cs

end Reckon.Token
