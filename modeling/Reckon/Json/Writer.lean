import Reckon.Json.Basic

/-!
Writing a JSON value as a document without blanks.
-/

namespace Reckon.Json

def hexChar (n : Nat) : Char := Nat.digitChar n

/-- A character of a string literal, escaped where the grammar asks for it. -/
def quoteChar (c : Char) : List Char :=
  if c.toNat = 0x22 ∨ c.toNat = 0x5C then [Char.ofNat 0x5C, c]
  else if c.toNat < 0x20 then
    [Char.ofNat 0x5C, 'u', '0', '0', hexChar (c.toNat / 16), hexChar (c.toNat % 16)]
  else [c]

def quote (text : String) : String :=
  let mark := Char.ofNat 0x22
  String.ofList (mark :: text.toList.flatMap quoteChar ++ [mark])

def Number.text (n : Number) : String :=
  String.ofList (if n.negative then '-' :: n.numeral.text else n.numeral.text)

mutual

/-- The pieces of a value's document, in reverse before those `written`. A literal that spells no
text is written as `null`. -/
def write (written : List String) : Json → List String
  | null => "null" :: written
  | bool value => (if value then "true" else "false") :: written
  | number value => value.text :: written
  | string text => text.elim "null" quote :: written
  | array [] => "[]" :: written
  | array (item :: items) => "]" :: writeItems (write ("[" :: written) item) items
  | object [] => "\x7b\x7d" :: written
  | object ((key, value) :: fields) =>
    "\x7d" :: writeFields (write (":" :: quote (key.getD "") :: "\x7b" :: written) value) fields

def writeItems (written : List String) : List Json → List String
  | [] => written
  | item :: items => writeItems (write ("," :: written) item) items

def writeFields (written : List String) : List (Option String × Json) → List String
  | [] => written
  | (key, value) :: fields =>
    writeFields (write (":" :: quote (key.getD "") :: "," :: written) value) fields

end

def text (value : Json) : String := String.join (write [] value).reverse

end Reckon.Json
