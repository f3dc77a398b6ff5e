import Reckon.Binary64.Basic

/-!
Arithmetic of binary64 numbers. A result that is a number is the one that IEEE 754 asks for. `Float`
has a single NaN, so what is added here is the sign of a NaN: an operand that is a NaN is handed on
with its sign, and an operation that has no number for its operands gives a negative NaN.
-/

namespace Reckon.Binary64

def toFloat (x : Binary64) : Float := .ofBits x.bits

/-- The number; a NaN comes out positive. -/
def ofFloat (x : Float) : Binary64 := ⟨x.toBits⟩

def ofNat (n : Nat) : Binary64 := ofFloat (.ofNat n)

instance (n : Nat) : OfNat Binary64 n := ⟨ofNat n⟩

instance : OfScientific Binary64 where
  ofScientific coefficient below exponent := ofFloat (.ofScientific coefficient below exponent)

/-- What an operation gives that has no number for its operands. -/
def invalid : Binary64 := ⟨0xFFF8000000000000⟩

def ofResult (x : Float) : Binary64 := if x.isNaN then invalid else ofFloat x

/-- A function of one number. -/
def apply (f : Float → Float) (x : Binary64) : Binary64 :=
  if x.isNaN then x else ofResult (f x.toFloat)

/-- A function of two numbers. Of two NaNs the first is handed on. -/
def combine (f : Float → Float → Float) (x y : Binary64) : Binary64 :=
  if x.isNaN then x
  else if y.isNaN then y
  else ofResult (f x.toFloat y.toFloat)

def abs (x : Binary64) : Binary64 := ofMagnitude false x.magnitude

instance : Neg Binary64 := ⟨fun x => ofMagnitude (!x.isNegative) x.magnitude⟩

instance : Add Binary64 := ⟨combine (· + ·)⟩

instance : Sub Binary64 := ⟨combine (· - ·)⟩

instance : Mul Binary64 := ⟨combine (· * ·)⟩

instance : Div Binary64 := ⟨combine (· / ·)⟩

def sqrt : Binary64 → Binary64 := apply Float.sqrt

/-- One to any power and any number to the power zero are one, NaNs included. An odd power of a
NaN is positive. -/
def pow (x y : Binary64) : Binary64 :=
  let power := x.toFloat.pow y.toFloat
  if !power.isNaN then ofFloat power
  else if x.isNaN then if y.isOdd then x.abs else x
  else if y.isNaN then y
  else invalid

/-- Equality of values: the zeros are equal, and a NaN equals nothing. -/
def equals (x y : Binary64) : Bool := x.toFloat == y.toFloat

instance : LT Binary64 := ⟨fun x y => x.toFloat < y.toFloat⟩

instance : LE Binary64 := ⟨fun x y => x.toFloat ≤ y.toFloat⟩

instance (x y : Binary64) : Decidable (x < y) :=
  inferInstanceAs (Decidable (x.toFloat < y.toFloat))

instance (x y : Binary64) : Decidable (x ≤ y) :=
  inferInstanceAs (Decidable (x.toFloat ≤ y.toFloat))

end Reckon.Binary64
