/-!
Binary64 numbers as bit patterns and as exact integers. Every finite one is a whole multiple of
`2 ^ -1074`, so the exact value of a magnitude is a natural number of these units, and the number
nearest to a fraction is found by one division and one rounding.

A pattern says more than a value: the zeros have two signs, and so have the patterns that are no
number.
-/

namespace Reckon

/-- `num / den` rounded to a whole number; a half goes to the even neighbour. -/
def roundHalfEven (num den : Nat) : Nat :=
  let low := num / den
  let rest := 2 * (num % den)
  if rest < den then low
  else if den < rest then low + 1
  else low + low % 2

/-- `num / den` rounded to a whole number; a half goes up. -/
def roundHalfUp (num den : Nat) : Nat := (2 * num + den) / (2 * den)

/-- A binary64 number, given by its bit pattern. -/
structure Binary64 where
  bits : UInt64
deriving DecidableEq, Repr, Inhabited

namespace Binary64

/-- A finite number is a whole multiple of `2 ^ -unitPlaces`. -/
def unitPlaces : Nat := 1074

/-- The pattern of positive infinity. Smaller patterns are the finite magnitudes, in order, and
greater ones without a sign are no number. -/
def infinity : Nat := 0x7FF0000000000000

/-- The bit of a pattern that holds the sign. -/
def signBit : Nat := 0x8000000000000000

/-- The number of patterns in a binade: numbers of one sign and one stored exponent. -/
def binadeSize : Nat := 0x10000000000000

/-- The number one, in units. -/
def one : Nat := 1 <<< unitPlaces

def isNegative (x : Binary64) : Bool := signBit ≤ x.bits.toNat

/-- The bit pattern without its sign. -/
def magnitude (x : Binary64) : Nat := x.bits.toNat % signBit

def isNaN (x : Binary64) : Bool := infinity < x.magnitude

def isInf (x : Binary64) : Bool := x.magnitude == infinity

def isFinite (x : Binary64) : Bool := x.magnitude < infinity

/-- Zero of either sign. -/
def isZero (x : Binary64) : Bool := x.magnitude == 0

/-- The place in the total order of bit patterns: negative zero stands before zero, a NaN behind
everything, and a negative NaN before everything. -/
def rank (x : Binary64) : Int := if x.isNegative then -x.magnitude - 1 else x.magnitude

def ofMagnitude (negative : Bool) (magnitude : Nat) : Binary64 :=
  ⟨UInt64.ofNat (if negative then signBit + magnitude else magnitude)⟩

/-- The exact value of a finite magnitude, in units of `2 ^ -unitPlaces`. From the second binade
on, the stored fraction lacks its leading bit and is scaled by its binade. -/
def units (magnitude : Nat) : Nat :=
  if magnitude < 2 * binadeSize then magnitude
  else (magnitude % binadeSize + binadeSize) <<< (magnitude / binadeSize - 1)

/-- The magnitude nearest to `num / den`, ties to even, infinity beyond the largest finite one.
Adding the significand to the binade's offset lets a carry move into the next binade. -/
def nearest (num den : Nat) : Nat :=
  let scaled := num <<< unitPlaces
  let binade := (scaled / den).log2 - 52
  min (binade * binadeSize + roundHalfEven scaled (den <<< binade)) infinity

/-- Finite, and without a fractional part. -/
def isWhole (x : Binary64) : Bool := x.isFinite && units x.magnitude % one == 0

/-- The whole part of a finite magnitude. -/
def floorMagnitude (x : Binary64) : Nat := units x.magnitude / one

/-- A whole number that two does not divide. -/
def isOdd (x : Binary64) : Bool := x.isWhole && x.floorMagnitude % 2 == 1

end Binary64
end Reckon
