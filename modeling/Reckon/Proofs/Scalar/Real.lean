import Mathlib.Analysis.Real.Sqrt
import Reckon.Proofs.Scalar

/-!
Exact arithmetic with square roots: the real numbers as scalars. Rational sequences are taken
along, and a sum of them stays the number it was.
-/

namespace Reckon.Scalar

open Classical in
noncomputable instance : RootScalar ℝ where
  zero := 0
  one := 1
  sumStart := 0
  ofNat n := n
  magnitude x := |x|
  isZero x := decide (x = 0)
  less x y := decide (x < y)
  atMost x y := decide (x ≤ y)
  ordered x y := decide (x ≤ y)
  sqrt := Real.sqrt

@[simp] theorem isZero_real (x : ℝ) : isZero x = true ↔ x = 0 := decide_eq_true_iff

@[simp] theorem less_real (x y : ℝ) : less x y = true ↔ x < y := decide_eq_true_iff

theorem sum_real (xs : List ℝ) : sum xs = xs.sum := by
  rw [List.sum_eq_foldl]
  rfl

end Reckon.Scalar
