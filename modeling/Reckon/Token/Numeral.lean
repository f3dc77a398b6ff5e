import Reckon.Decimal.Basic

/-!
Numerals at the head of a text: digits, a point with further digits, an exponent. A numeral is read
as its parts, which keep every character, so its text is a slice of what was read.
-/

namespace Reckon

/-- The exponent of a numeral: its mark, its sign if it has one, its digits. -/
structure Numeral.Scale where
  mark : Char
  sign : List Char
  digits : List Char
deriving DecidableEq

structure Numeral where
  whole : List Char
  /-- The digits after the point, if there is a point. -/
  fraction : Option (List Char)
  scale : Option Numeral.Scale
deriving DecidableEq

namespace Numeral

def Scale.text (s : Scale) : List Char := s.mark :: (s.sign ++ s.digits)

def Scale.value (s : Scale) : Int :=
  let magnitude : Int := Nat.ofDigitChars 10 s.digits 0
  if s.sign = ['-'] then -magnitude else magnitude

/-- The characters the numeral was read from. -/
def text (n : Numeral) : List Char :=
  n.whole ++ (n.fraction.elim [] ('.' :: ·)) ++ (n.scale.elim [] Scale.text)

def value (n : Numeral) : Decimal :=
  .ofDigits n.whole (n.fraction.getD []) (n.scale.elim 0 Scale.value)

/-- A digit, or a point with a digit behind it. -/
def starts : List Char → Bool
  | '.' :: c :: _ => c.isDigit
  | c :: _ => c.isDigit
  | [] => false

/-- An exponent is taken only where a digit follows its mark or its sign. -/
def Scale.read? : List Char → Option Scale
  | [] => none
  | mark :: rest =>
    if mark = 'e' ∨ mark = 'E' then
      let sign := match rest with
        | '+' :: _ => ['+']
        | '-' :: _ => ['-']
        | _ => []
      let digits := (rest.drop sign.length).takeWhile Char.isDigit
      if digits = [] then none else some ⟨mark, sign, digits⟩
    else none

/-- The longest numeral at the head of a text that starts one. -/
def read (cs : List Char) : Numeral :=
  let whole := cs.takeWhile Char.isDigit
  let fraction := match cs.drop whole.length with
    | '.' :: rest => some (rest.takeWhile Char.isDigit)
    | _ => none
  ⟨whole, fraction, Scale.read? (cs.drop (whole.length + fraction.elim 0 (·.length + 1)))⟩

end Numeral
end Reckon
