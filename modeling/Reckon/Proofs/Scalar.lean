import Mathlib.Algebra.Order.Field.Rat
import Mathlib.Algebra.Order.Group.Unbundled.Abs
import Reckon.Scalar

/-!
The scalars of exact arithmetic: over the rationals, what the kernels use are the usual
operations and comparisons.
-/

namespace Reckon.Scalar

@[simp] theorem zero_rat : (zero : ℚ) = 0 := rfl

@[simp] theorem one_rat : (one : ℚ) = 1 := rfl

@[simp] theorem ofNat_rat (n : Nat) : (ofNat n : ℚ) = n := rfl

@[simp] theorem isZero_rat (x : ℚ) : isZero x = true ↔ x = 0 := beq_iff_eq

@[simp] theorem less_rat (x y : ℚ) : less x y = true ↔ x < y := decide_eq_true_iff

@[simp] theorem atMost_rat (x y : ℚ) : atMost x y = true ↔ x ≤ y := decide_eq_true_iff

@[simp] theorem magnitude_rat (x : ℚ) : magnitude x = |x| := by
  by_cases h : x < 0
  · rw [abs_of_neg h]
    exact if_pos h
  · rw [abs_of_nonneg (not_lt.1 h)]
    exact if_neg h

theorem sum_rat (xs : List ℚ) : sum xs = xs.sum := by
  rw [List.sum_eq_foldl]
  rfl

end Reckon.Scalar
