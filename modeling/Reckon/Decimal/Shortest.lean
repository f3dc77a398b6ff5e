import Reckon.Decimal.Basic

/-!
The shortest decimal that reads back as a given binary64 number, and the plain text of a number:
these digits, written without an exponent. Each candidate is read back before it is taken, and
the exact expansion stands behind the candidates, so the text always names the number it came from.
-/

namespace Reckon.Decimal

/-- The exact value of a magnitude. -/
def exact (bits : Nat) : Decimal :=
  ⟨Binary64.units bits * Nat.pow 5 Binary64.unitPlaces, -Binary64.unitPlaces⟩

/-- The multiple of `10 ^ exponent` that reads back as the magnitude, if one of its two
neighbours does; the nearer one first, and of two at one distance the upper one. -/
def onGrid (bits : Nat) (exponent : Int) : Option Decimal :=
  let near := steps roundHalfUp bits exponent
  [near, near + 1, near - 1].findSome? fun coefficient =>
    let d : Decimal := ⟨coefficient, exponent⟩
    if d.bits = bits then some d else none

/-- The number of fewest digits that reads back as the magnitude. The coarsest grid is the one
above the first digit, which a magnitude just below a power of ten may round up to. -/
def shortest (bits : Nat) : Decimal :=
  if bits = 0 then ⟨0, 0⟩
  else
    let first := decade bits + 1
    ((List.range 18).findSome? fun (n : Nat) => onGrid bits (first - n)).getD (exact bits)

/-- The characters of a number's plain text: a minus for every negative sign bit, then the
shortest digits. -/
def plainChars (x : Binary64) : List Char :=
  if x.isNaN then ['N', 'a', 'N']
  else
    let body := if x.isInf then ['i', 'n', 'f'] else (shortest x.magnitude).positional
    if x.isNegative then '-' :: body else body

def plain (x : Binary64) : String := String.ofList (plainChars x)

end Reckon.Decimal
