import Reckon.Binary64.Arithmetic
import Reckon.Decimal.Basic

/-!
The display form of numbers: plain up to ten places, scientific for the very large and the very
small, and never with zeros at the end of a fraction.
-/

namespace Reckon.Display

/-- Magnitudes from here on are written in scientific notation. -/
def scientificFrom : Binary64 := 1e10

/-- Magnitudes other than zero below this are written in scientific notation. -/
def scientificBelow : Binary64 := 1e-6

/-- The most digits after the point, in plain notation. -/
def places : Nat := 10

/-- The most digits after the point of a mantissa. -/
def mantissaPlaces : Nat := 9

/-- A text with a point loses the zeros at its end, and then the point if nothing follows it. -/
def trimFraction (cs : List Char) : List Char :=
  if cs.contains '.' then
    let kept := cs.reverse.dropWhile (· == '0')
    (if kept.head? = some '.' then kept.drop 1 else kept).reverse
  else cs

/-- A positive magnitude as mantissa and exponent. -/
def scientific (bits : Nat) : List Char :=
  let d := Decimal.significant mantissaPlaces bits
  let exponent := d.exponent + mantissaPlaces
  let sign := if exponent < 0 then ['-'] else []
  trimFraction (Decimal.positional ⟨d.coefficient, -mantissaPlaces⟩) ++
    'e' :: sign ++ Nat.toDigits 10 exponent.natAbs

/-- A finite number other than zero, without its sign. -/
def magnitude (x : Binary64) : List Char :=
  let bits := x.magnitude
  if x.abs ≥ scientificFrom || x.abs < scientificBelow then scientific bits
  else if x.isWhole then Nat.toDigits 10 x.floorMagnitude
  else trimFraction (Decimal.fixed places bits).positional

def numberChars (x : Binary64) : List Char :=
  if x.isNaN then ['N', 'a', 'N']
  else if x.isInf then if x.isNegative then ['-', '∞'] else ['∞']
  else if x.isZero then ['0']
  else if x.isNegative then '-' :: magnitude x
  else magnitude x

def number (x : Binary64) : String := String.ofList (numberChars x)

end Reckon.Display
