import Mathlib.Algebra.BigOperators.Ring.List
import Mathlib.Algebra.Order.BigOperators.Group.List
import Mathlib.Algebra.Order.Ring.Abs
import Reckon.Proofs.Scalar
import Reckon.Statistics.Pairs

/-!
Means and deviations in exact arithmetic. The deviations from a mean cancel, and their
squares vanish together only where nothing varies. Rounding is not considered: over
binary64 numbers neither holds.
-/

namespace Reckon.Statistics

variable {ι : Type} {xs : List ℚ}

theorem average_rat (xs : List ℚ) : average xs = xs.sum / xs.length := by
  rw [average, Scalar.sum_rat]
  rfl

theorem length_mul_average (xs : List ℚ) : xs.length * average xs = xs.sum := by
  rw [average_rat]
  cases xs with
  | nil => simp
  | cons x xs => exact mul_div_cancel₀ _ (Nat.cast_ne_zero.2 (Nat.succ_ne_zero xs.length))

theorem average_of_forall_eq {m : ℚ} (hne : xs ≠ []) (h : ∀ x ∈ xs, x = m) :
    average xs = m := by
  have hn : (xs.length : ℚ) ≠ 0 := Nat.cast_ne_zero.2 (mt List.length_eq_zero_iff.1 hne)
  rw [average_rat, List.sum_eq_card_nsmul xs m h, nsmul_eq_mul, mul_div_cancel_left₀ _ hn]

/-- How far the value at a point lies from the mean of all values. -/
def deviation (ps : List ι) (f : ι → ℚ) (p : ι) : ℚ := f p - average (ps.map f)

theorem sum_deviation (ps : List ι) (f : ι → ℚ) : (ps.map (deviation ps f)).sum = 0 := by
  have hsplit : deviation ps f = fun p => f p + -average (ps.map f) := by
    funext p
    exact sub_eq_add_neg _ _
  rw [hsplit, List.sum_map_add, List.map_const', List.sum_replicate, nsmul_eq_mul,
    mul_neg, ← List.length_map f, length_mul_average, add_neg_cancel]

theorem coDeviation_map (ps : List ι) (f g : ι → ℚ) :
    coDeviation (ps.map f) (ps.map g) =
      (ps.map fun p => deviation ps f p * deviation ps g p).sum := by
  rw [coDeviation, Scalar.sum_rat, List.zipWith_map, List.zipWith_self]
  rfl

/-- The squared distances of the values from their mean. -/
def totalSquares (xs : List ℚ) : ℚ := (xs.map fun x => (x - xs.sum / xs.length) ^ 2).sum

theorem coDeviation_self (xs : List ℚ) : coDeviation xs xs = totalSquares xs := by
  have hmap := coDeviation_map xs id id
  simp only [List.map_id, deviation, id, average_rat] at hmap
  simp only [hmap, totalSquares, pow_two]

theorem coDeviation_self_nonneg (xs : List ℚ) : 0 ≤ coDeviation xs xs := by
  rw [coDeviation_self]
  apply List.sum_nonneg
  simp [sq_nonneg]

/-- The squared deviations vanish where all values are the same, and nowhere else. -/
theorem coDeviation_self_eq_zero :
    coDeviation xs xs = 0 ↔ ∀ x ∈ xs, ∀ x' ∈ xs, x = x' := by
  rw [coDeviation_self]
  constructor
  · intro h
    have hmean : ∀ x ∈ xs, x = xs.sum / xs.length := by
      intro x hx
      have hzero := List.all_zero_of_le_zero_le_of_sum_eq_zero (by simp [sq_nonneg]) h
        (List.mem_map_of_mem hx)
      exact sub_eq_zero.1 (pow_eq_zero_iff two_ne_zero |>.1 hzero)
    intro x hx x' hx'
    rw [hmean x hx, hmean x' hx']
  · intro h
    apply List.sum_eq_zero
    simp only [List.mem_map]
    rintro _ ⟨x, hx, rfl⟩
    have hmean := average_of_forall_eq (List.ne_nil_of_mem hx) fun x' hx' => h x' hx' x hx
    rw [← average_rat, hmean, sub_self, zero_pow two_ne_zero]

end Reckon.Statistics
