import Reckon.Binary64.Arithmetic

/-!
The arithmetic that the numeric kernels need. They run on binary64 numbers; the same definitions
over the rationals compute exactly.
-/

namespace Reckon

class Scalar (α : Type) extends Add α, Sub α, Mul α, Div α, Neg α where
  zero : α
  one : α
  /-- What a sum starts from: the number that is neutral for every other one. -/
  sumStart : α
  ofNat : Nat → α
  magnitude : α → α
  isZero : α → Bool
  less : α → α → Bool
  atMost : α → α → Bool
  /-- A total order, also on what `atMost` cannot compare. -/
  ordered : α → α → Bool

/-- Scalars with square roots. -/
class RootScalar (α : Type) extends Scalar α where
  sqrt : α → α

/-- Adding to negative zero changes no number, negative zero included. -/
instance : RootScalar Binary64 where
  zero := 0
  one := 1
  sumStart := -0
  ofNat := Binary64.ofNat
  magnitude := Binary64.abs
  isZero := Binary64.isZero
  less x y := x < y
  atMost x y := x ≤ y
  ordered x y := Binary64.rank x ≤ Binary64.rank y
  sqrt := Binary64.sqrt

instance : Scalar Rat where
  zero := 0
  one := 1
  sumStart := 0
  ofNat n := n
  magnitude x := if x < 0 then -x else x
  isZero x := x == 0
  less x y := x < y
  atMost x y := x ≤ y
  ordered x y := x ≤ y

namespace Scalar

variable {α : Type} [Scalar α]

/-- The sum of a sequence, from left to right. -/
def sum (xs : List α) : α := xs.foldl (· + ·) sumStart

/-- The sum of the products of corresponding entries. -/
def sumOfProducts (xs ys : List α) : α := sum (List.zipWith (· * ·) xs ys)

end Scalar

/-- What a kernel computed, and how many scalars it took in. -/
structure Measured (α : Type) where
  value : α
  inputSize : Nat

def Measured.map {α β : Type} (f : α → β) (m : Measured α) : Measured β := ⟨f m.value, m.inputSize⟩

end Reckon
