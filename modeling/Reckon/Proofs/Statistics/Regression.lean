import Mathlib.Tactic.FieldSimp
import Mathlib.Tactic.Linarith
import Mathlib.Tactic.Ring
import Reckon.Proofs.Failure
import Reckon.Proofs.Statistics.Deviations

/-!
The line of a regression is the line of ordinary least squares, in exact arithmetic. It is
found by closed formulas, and what makes them right is that they solve the normal equations:
from there the squares of the residuals are completed. How well the formulas do in rounded
arithmetic is not described here.
-/

namespace Reckon.Statistics

variable {xs ys : List ℚ} {s c slope intercept : ℚ}

/-- What a line leaves of the second coordinates, squared and summed over the points. -/
def squaredResiduals (xs ys : List ℚ) (slope intercept : ℚ) : ℚ :=
  ((xs.zip ys).map fun p => (p.2 - slope * p.1 - intercept) ^ 2).sum

/-- No line leaves less. -/
def IsLeastSquares (xs ys : List ℚ) (slope intercept : ℚ) : Prop :=
  ∀ s c, squaredResiduals xs ys slope intercept ≤ squaredResiduals xs ys s c

theorem squaredResiduals_nonneg (xs ys : List ℚ) (s c : ℚ) : 0 ≤ squaredResiduals xs ys s c := by
  apply List.sum_nonneg
  simp only [List.mem_map]
  rintro _ ⟨p, -, rfl⟩
  exact sq_nonneg _

/-- The residuals of a line by the deviations, and by how far it misses the point of means. -/
theorem squaredResiduals_eq (hlength : xs.length = ys.length) (s c : ℚ) :
    squaredResiduals xs ys s c =
      coDeviation ys ys - 2 * s * coDeviation xs ys + s ^ 2 * coDeviation xs xs
        + xs.length * (average ys - s * average xs - c) ^ 2 := by
  have hx : (xs.zip ys).map Prod.fst = xs := List.map_fst_zip hlength.le
  have hy : (xs.zip ys).map Prod.snd = ys := List.map_snd_zip hlength.ge
  obtain ⟨d, hd⟩ : ∃ d, d = average ys - s * average xs - c := ⟨_, rfl⟩
  have hexpand : ∀ p : ℚ × ℚ, (p.2 - s * p.1 - c) ^ 2 =
      deviation (xs.zip ys) Prod.snd p * deviation (xs.zip ys) Prod.snd p +
        (-2 * s * (deviation (xs.zip ys) Prod.fst p * deviation (xs.zip ys) Prod.snd p) +
        (s ^ 2 * (deviation (xs.zip ys) Prod.fst p * deviation (xs.zip ys) Prod.fst p) +
        (2 * d * deviation (xs.zip ys) Prod.snd p +
        (-2 * s * d * deviation (xs.zip ys) Prod.fst p + d ^ 2)))) := by
    intro p
    rw [deviation, deviation, hx, hy, hd]
    ring
  have hn : (xs.zip ys).length = xs.length := by rw [← List.length_map Prod.fst, hx]
  rw [squaredResiduals, ← hd]
  simp only [hexpand, List.sum_map_add, List.sum_map_mul_left, sum_deviation,
    List.map_const', List.sum_replicate, nsmul_eq_mul, ← coDeviation_map, hx, hy, hn]
  ring

/-- The line solves the normal equations: its slope carries the squared deviations to the
co-deviations, and it passes the point of means. -/
structure IsNormal (xs ys : List ℚ) (slope intercept : ℚ) : Prop where
  carries : slope * coDeviation xs xs = coDeviation xs ys
  passes : average ys = slope * average xs + intercept

theorem IsNormal.squaredResiduals_eq (h : IsNormal xs ys slope intercept)
    (hlength : xs.length = ys.length) :
    squaredResiduals xs ys slope intercept =
      coDeviation ys ys - slope * coDeviation xs ys := by
  rw [Statistics.squaredResiduals_eq hlength, h.passes, ← h.carries]
  ring

/-- The square is completed: what another line leaves in addition depends on how far its
slope is off and on how far it misses the point of means. -/
theorem IsNormal.squaredResiduals_add (h : IsNormal xs ys slope intercept)
    (hlength : xs.length = ys.length) (s c : ℚ) :
    squaredResiduals xs ys s c = squaredResiduals xs ys slope intercept
      + coDeviation xs xs * (s - slope) ^ 2
      + xs.length * (average ys - s * average xs - c) ^ 2 := by
  rw [h.squaredResiduals_eq hlength, Statistics.squaredResiduals_eq hlength, ← h.carries]
  ring

theorem IsNormal.isLeastSquares_iff (h : IsNormal xs ys slope intercept)
    (hlength : xs.length = ys.length) (hne : coDeviation xs xs ≠ 0) :
    IsLeastSquares xs ys s c ↔ s = slope ∧ c = intercept := by
  have hsxx : 0 < coDeviation xs xs := lt_of_le_of_ne (coDeviation_self_nonneg xs) (Ne.symm hne)
  have hn : (0 : ℚ) < xs.length := by
    apply Nat.cast_pos.2
    apply List.length_pos_iff.2
    rintro rfl
    exact hne rfl
  have hslope (s : ℚ) : 0 ≤ coDeviation xs xs * (s - slope) ^ 2 :=
    mul_nonneg hsxx.le (sq_nonneg _)
  have hmeans (s c : ℚ) : 0 ≤ xs.length * (average ys - s * average xs - c) ^ 2 :=
    mul_nonneg hn.le (sq_nonneg _)
  constructor
  · intro hs
    have hle := hs slope intercept
    rw [h.squaredResiduals_add hlength s c] at hle
    have hs0 : coDeviation xs xs * (s - slope) ^ 2 = 0 := by
      linarith [hslope s, hmeans s c]
    have hc0 : xs.length * (average ys - s * average xs - c) ^ 2 = 0 := by
      linarith [hslope s, hmeans s c]
    have hs1 : s - slope = 0 := by simpa [hne] using hs0
    have hc1 : average ys - s * average xs - c = 0 := by simpa [hn.ne'] using hc0
    obtain rfl := sub_eq_zero.1 hs1
    rw [h.passes] at hc1
    exact ⟨rfl, by linarith⟩
  · rintro ⟨rfl, rfl⟩ s' c'
    rw [h.squaredResiduals_add hlength s' c']
    linarith [hslope s', hmeans s' c']

/-- The share of the squared deviations that the line accounts for. -/
theorem IsNormal.one_sub_div (h : IsNormal xs ys slope intercept)
    (hlength : xs.length = ys.length) (hy : coDeviation ys ys ≠ 0) :
    coDeviation xs ys * coDeviation xs ys / (coDeviation xs xs * coDeviation ys ys) =
      1 - squaredResiduals xs ys slope intercept / totalSquares ys := by
  rw [h.squaredResiduals_eq hlength, ← coDeviation_self, ← h.carries]
  field_simp
  ring

/-- A line through all points leaves nothing. -/
theorem squaredResiduals_eq_zero (h : ∀ p ∈ xs.zip ys, p.2 = s * p.1 + c) :
    squaredResiduals xs ys s c = 0 := by
  apply List.sum_eq_zero
  simp only [List.mem_map]
  rintro _ ⟨p, hp, rfl⟩
  rw [h p hp]
  ring

theorem requirePairs_eq_ok {α : Type} [Scalar α] {xs ys : List α} (op : String)
    (hlength : xs.length = ys.length) (hcount : 2 ≤ xs.length) :
    requirePairs op xs ys = .ok () := by
  have hrequire (xs : List α) (h : 2 ≤ xs.length) : requireValues op xs = .ok () := by
    cases xs with
    | nil => cases h
    | cons x xs => rfl
  rw [requirePairs, hrequire xs hcount, ok_bind, hrequire ys (hlength ▸ hcount), ok_bind,
    if_neg (not_not.2 hlength), requireCount, if_neg (Nat.not_lt.2 hcount)]

/-- A regression fails where all first coordinates are the same. Elsewhere it answers with
a line that solves the normal equations. -/
theorem linearRegression_cases (hlength : xs.length = ys.length) (hcount : 2 ≤ xs.length) :
    (coDeviation xs xs = 0 ∧
      linearRegression xs ys = .error (.of (.argument .repeatedAbscissa))) ∨
    coDeviation xs xs ≠ 0 ∧ ∃ fit, linearRegression xs ys = .ok fit ∧
      IsNormal xs ys fit.value.slope fit.value.intercept ∧
      fit.value.rSquared = if coDeviation ys ys = 0 then 1 else
        coDeviation xs ys * coDeviation xs ys / (coDeviation xs xs * coDeviation ys ys) := by
  rw [linearRegression, requirePairs_eq_ok _ hlength hcount, ok_bind]
  dsimp only
  by_cases hne : coDeviation xs xs = 0
  · exact .inl ⟨hne, if_pos ((Scalar.isZero_rat _).2 hne)⟩
  · rw [if_neg (mt (Scalar.isZero_rat _).1 hne)]
    refine .inr ⟨hne, _, rfl, ⟨div_mul_cancel₀ _ hne, ?_⟩, ?_⟩
    · exact (add_sub_cancel _ _).symm
    · simp only [Scalar.isZero_rat]
      rfl

/-- The line of a regression is the one of least squares, and there is such a line exactly
where two first coordinates differ. Its coefficient of determination is the share of the
squared deviations that the line leaves no residual of. -/
theorem linearRegression_leastSquares (xs ys : List ℚ) (hlength : xs.length = ys.length)
    (hcount : 2 ≤ xs.length) :
    ((∃ fit, linearRegression xs ys = .ok fit) ↔ ∃ x ∈ xs, ∃ x' ∈ xs, x ≠ x') ∧
    (∀ failure, linearRegression xs ys = .error failure → failure.kind = .invalidArgument) ∧
    ∀ fit, linearRegression xs ys = .ok fit →
      (∀ s c, IsLeastSquares xs ys s c ↔ s = fit.value.slope ∧ c = fit.value.intercept) ∧
      ((∃ y ∈ ys, ∃ y' ∈ ys, y ≠ y') → fit.value.rSquared =
        1 - squaredResiduals xs ys fit.value.slope fit.value.intercept / totalSquares ys) ∧
      ((∀ y ∈ ys, ∀ y' ∈ ys, y = y') → fit.value.rSquared = 1) ∧
      ∀ a c, (∀ p ∈ xs.zip ys, p.2 = a * p.1 + c) →
        fit.value.slope = a ∧ fit.value.intercept = c ∧ fit.value.rSquared = 1 := by
  have hdistinct : coDeviation xs xs ≠ 0 ↔ ∃ x ∈ xs, ∃ x' ∈ xs, x ≠ x' := by
    rw [Ne, coDeviation_self_eq_zero]
    push Not
    rfl
  obtain ⟨hzero, herror⟩ | ⟨hne, fit, hfit, hnormal, hr⟩ := linearRegression_cases hlength hcount
  · rw [herror]
    refine ⟨iff_of_false (by simp) (mt hdistinct.2 (not_not.2 hzero)), ?_, ?_⟩
    · rintro _ ⟨⟩
      rfl
    · rintro _ ⟨⟩
  · rw [hfit]
    refine ⟨iff_of_true ⟨fit, rfl⟩ (hdistinct.1 hne), ?_, ?_⟩
    · rintro _ ⟨⟩
    · rintro _ ⟨⟩
      have hleast (s c : ℚ) := hnormal.isLeastSquares_iff (s := s) (c := c) hlength hne
      have hvaries (hy : coDeviation ys ys ≠ 0) : fit.value.rSquared = 1 -
          squaredResiduals xs ys fit.value.slope fit.value.intercept / totalSquares ys := by
        rw [hr, if_neg hy, hnormal.one_sub_div hlength hy]
      refine ⟨hleast, ?_, ?_, ?_⟩
      · rintro ⟨y, hy, y', hy', hyy⟩
        exact hvaries fun h => hyy (coDeviation_self_eq_zero.1 h y hy y' hy')
      · intro hy
        rw [hr, if_pos (coDeviation_self_eq_zero.2 hy)]
      · intro a c hline
        have hzero := squaredResiduals_eq_zero hline
        obtain ⟨rfl, rfl⟩ := (hleast a c).1 fun s' c' => by
          rw [hzero]
          exact squaredResiduals_nonneg xs ys s' c'
        refine ⟨rfl, rfl, ?_⟩
        by_cases hy : coDeviation ys ys = 0
        · rw [hr, if_pos hy]
        · rw [hvaries hy, hzero, zero_div, sub_zero]

theorem linearRegression_leastSquares_scattered :
    ∃ fit, linearRegression ([1, 2, 3, 4] : List ℚ) [2, 4, 5, 4] = .ok fit ∧
      ∀ s c, IsLeastSquares [1, 2, 3, 4] [2, 4, 5, 4] s c ↔ s = 7 / 10 ∧ c = 2 := by
  have hvalue : (linearRegression ([1, 2, 3, 4] : List ℚ) [2, 4, 5, 4]).toOption.map
      (fun fit => (fit.value.slope, fit.value.intercept)) = some (7 / 10, 2) := by
    decide +kernel
  obtain ⟨fit, hfit, hline⟩ := Option.map_eq_some_iff.1 hvalue
  rw [toOption_eq_some] at hfit
  obtain ⟨-, -, h⟩ := linearRegression_leastSquares [1, 2, 3, 4] [2, 4, 5, 4] rfl (by decide)
  obtain ⟨hleast, -⟩ := h fit hfit
  obtain ⟨hs, hc⟩ := Prod.mk.inj hline
  rw [hs, hc] at hleast
  exact ⟨fit, hfit, hleast⟩

end Reckon.Statistics
