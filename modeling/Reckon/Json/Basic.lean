import Reckon.Decimal.Shortest
import Reckon.Token.Numeral

/-!
JSON values as they stand in a document: fields keep their order and their repetitions, numbers
keep their digits. A string literal whose bytes or escapes spell no text is kept as such, because
only a reader that wants its text has to refuse it.
-/

namespace Reckon

structure Json.Number where
  negative : Bool
  numeral : Numeral
deriving DecidableEq

inductive Json where
  | null
  | bool (value : Bool)
  | number (value : Json.Number)
  /-- A string literal, `none` where it spells no text. -/
  | string (text : Option String)
  | array (items : List Json)
  | object (fields : List (Option String × Json))
deriving Inhabited

namespace Json

namespace Number

/-- A number without point and exponent. -/
def isInteger (n : Number) : Bool := n.numeral.fraction.isNone && n.numeral.scale.isNone

/-- The nearest binary64 number; infinite beyond its range. -/
def toBinary64 (n : Number) : Binary64 := Binary64.ofMagnitude n.negative n.numeral.value.bits

/-- The value of a number without point and exponent, unless it is negative. -/
def toNat? (n : Number) : Option Nat :=
  let magnitude := Nat.ofDigitChars 10 n.numeral.whole 0
  if n.isInteger && (!n.negative || magnitude == 0) then some magnitude else none

def ofInt (value : Int) : Number :=
  ⟨value < 0, ⟨Nat.toDigits 10 value.natAbs, none, none⟩⟩

/-- The number `±coefficient * 10 ^ exponent`, with a point or an exponent so that it is not taken
for an integer. -/
def ofDecimal (negative : Bool) (d : Decimal) : Number :=
  let whole := Nat.toDigits 10 d.coefficient
  if d.exponent = 0 then ⟨negative, ⟨whole, some ['0'], none⟩⟩
  else
    let sign := if d.exponent < 0 then ['-'] else []
    ⟨negative, ⟨whole, none, some ⟨'e', sign, Nat.toDigits 10 d.exponent.natAbs⟩⟩⟩

/-- A finite binary64 number in as few digits as read back. -/
def ofBinary64 (x : Binary64) : Number :=
  ofDecimal x.isNegative (.shortest x.magnitude)

end Number

def ofString (text : String) : Json := string (some text)

def ofNat (n : Nat) : Json := number (.ofInt n)

/-- An object with the given fields. -/
def fields (entries : List (String × Json)) : Json :=
  object (entries.map fun (key, value) => (some key, value))

/-- The value of the first field of that name. -/
def get? (key : String) : Json → Option Json
  | object fields => (fields.find? fun (k, _) => k == some key).map (·.2)
  | _ => none

/-- The values of all fields of that name, unless some field has a name that is no text. -/
def named? (fields : List (Option String × Json)) (name : String) : Option (List Json) :=
  if fields.any fun field => field.1.isNone then none
  else some ((fields.filter fun field => field.1 == some name).map (·.2))

end Json
end Reckon
