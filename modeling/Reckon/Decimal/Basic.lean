import Reckon.Binary64.Basic

/-!
Decimal numbers `coefficient * 10 ^ exponent`: their written form without an exponent, and the
binary64 magnitude nearest to them. Only digits and points are written and read here; signs and
exponent marks belong to the formats that use them.
-/

namespace Reckon

/-- The number `coefficient * 10 ^ exponent`. -/
structure Decimal where
  coefficient : Nat
  exponent : Int
deriving DecidableEq, Repr, Inhabited

namespace Decimal

/-- The number written `whole.fraction` and scaled by a power of ten. -/
def ofDigits (whole fraction : List Char) (scale : Int) : Decimal :=
  ⟨Nat.ofDigitChars 10 (whole ++ fraction) 0, scale - fraction.length⟩

/-- A number other than zero lies below `10 ^ lead` and not below `10 ^ (lead - 1)`. -/
def lead (d : Decimal) : Int := (Nat.toDigits 10 d.coefficient).length + d.exponent

/-- The magnitude nearest to the number. Leads outside the range of binary64 decide without
writing out the power of ten. -/
def bits (d : Decimal) : Nat :=
  if d.coefficient = 0 then 0
  else if 310 < d.lead then Binary64.infinity
  else if d.lead < -330 then 0
  else match d.exponent with
    | .ofNat e => Binary64.nearest (d.coefficient * Nat.pow 10 e) 1
    | .negSucc e => Binary64.nearest d.coefficient (Nat.pow 10 (e + 1))

def toBinary64 (d : Decimal) : Binary64 := Binary64.ofMagnitude false d.bits

/-- Digits of `n`, padded with zeros on the left to at least `width`. -/
def padded (width n : Nat) : List Char :=
  let digits := Nat.toDigits 10 n
  List.replicate (width - digits.length) '0' ++ digits

/-- The number without an exponent: as many digits after the point as the exponent asks for, and
no point when it asks for none. -/
def positional (d : Decimal) : List Char :=
  match d.exponent with
  | .ofNat e => Nat.toDigits 10 (d.coefficient * Nat.pow 10 e)
  | .negSucc e =>
    let unit := Nat.pow 10 (e + 1)
    Nat.toDigits 10 (d.coefficient / unit) ++ '.' :: padded (e + 1) (d.coefficient % unit)

/-- A magnitude in steps `10 ^ exponent`, by a way to round a fraction to a whole number. -/
def steps (round : Nat → Nat → Nat) (bits : Nat) (exponent : Int) : Nat :=
  round (Binary64.units bits * Nat.pow 10 (-exponent).toNat)
    (Binary64.one * Nat.pow 10 exponent.toNat)

/-- The exponent of a positive magnitude's first digit: `10 ^ decade` is the largest power of ten
not above it. -/
def decade (bits : Nat) : Int :=
  let units := Binary64.units bits
  if Binary64.one ≤ units then (Nat.toDigits 10 (units / Binary64.one)).length - 1
  else -(Nat.toDigits 10 ((Binary64.one - 1) / units)).length

/-- A magnitude rounded to a multiple of `10 ^ -places`, ties to even. -/
def fixed (places : Nat) (bits : Nat) : Decimal :=
  ⟨steps roundHalfEven bits (-places), -places⟩

/-- A positive magnitude rounded to `count + 1` significant digits, ties to even. Rounding up to
the next power of ten keeps that many digits. -/
def significant (count : Nat) (bits : Nat) : Decimal :=
  let exponent := decade bits - count
  let coefficient := steps roundHalfEven bits exponent
  if coefficient = Nat.pow 10 (count + 1) then ⟨Nat.pow 10 count, exponent + 1⟩
  else ⟨coefficient, exponent⟩

end Decimal
end Reckon
