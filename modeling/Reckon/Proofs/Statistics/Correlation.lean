import Mathlib.Algebra.QuadraticDiscriminant
import Reckon.Proofs.Scalar.Real
import Reckon.Proofs.Statistics.Regression

/-!
Correlation is bounded, in exact arithmetic. The bound is the inequality of Cauchy and
Schwarz: what a line through the point of means leaves as residuals is never negative,
whatever its slope. It is reached where some line leaves nothing. Roots are taken over the
real numbers, so the sequences are rational and their correlation is real.
-/

namespace Reckon.Statistics

variable {xs ys : List ℚ}

/-- All points lie on one line, which may be vertical. -/
def OnLine (xs ys : List ℚ) : Prop :=
  ∃ a b c : ℚ, (a ≠ 0 ∨ b ≠ 0) ∧ ∀ p ∈ xs.zip ys, a * p.1 + b * p.2 = c

def Constant (xs : List ℚ) : Prop := ∀ x ∈ xs, ∀ x' ∈ xs, x = x'

/-- No residuals are left by a line through all points, and by no other. -/
theorem squaredResiduals_eq_zero_iff {s c : ℚ} :
    squaredResiduals xs ys s c = 0 ↔ ∀ p ∈ xs.zip ys, p.2 = s * p.1 + c := by
  refine ⟨fun h p hp => ?_, squaredResiduals_eq_zero⟩
  have hterms : ∀ t ∈ (xs.zip ys).map (fun p => (p.2 - s * p.1 - c) ^ 2), 0 ≤ t := by
    simp only [List.mem_map]
    rintro _ ⟨q, -, rfl⟩
    exact sq_nonneg _
  have hzero := List.all_zero_of_le_zero_le_of_sum_eq_zero hterms h (List.mem_map_of_mem hp)
  linarith [pow_eq_zero_iff two_ne_zero |>.1 hzero]

theorem sq_coDeviation_le (hlength : xs.length = ys.length) :
    coDeviation xs ys ^ 2 ≤ coDeviation xs xs * coDeviation ys ys := by
  have hresidual (s : ℚ) : 0 ≤ coDeviation xs xs * (s * s) + -2 * coDeviation xs ys * s
      + coDeviation ys ys := by
    have hnonneg := squaredResiduals_nonneg xs ys s (average ys - s * average xs)
    rw [squaredResiduals_eq hlength] at hnonneg
    linarith
  have hdiscrim := discrim_le_zero hresidual
  rw [discrim] at hdiscrim
  linarith

/-- Where the first coordinates differ, what is missing to equality is what the line of
least squares leaves. -/
theorem sq_coDeviation_eq_iff_residuals (hlength : xs.length = ys.length)
    (hne : coDeviation xs xs ≠ 0) :
    coDeviation xs ys ^ 2 = coDeviation xs xs * coDeviation ys ys ↔
      ∃ s c, squaredResiduals xs ys s c = 0 := by
  have hnormal : IsNormal xs ys (coDeviation xs ys / coDeviation xs xs)
      (average ys - coDeviation xs ys / coDeviation xs xs * average xs) :=
    ⟨div_mul_cancel₀ _ hne, (add_sub_cancel _ _).symm⟩
  have hleast := (hnormal.isLeastSquares_iff hlength hne).2 ⟨rfl, rfl⟩
  have hmissing : coDeviation xs xs * squaredResiduals xs ys
        (coDeviation xs ys / coDeviation xs xs)
        (average ys - coDeviation xs ys / coDeviation xs xs * average xs) =
      coDeviation xs xs * coDeviation ys ys - coDeviation xs ys ^ 2 := by
    rw [hnormal.squaredResiduals_eq hlength]
    field_simp
  constructor
  · intro heq
    rw [heq, sub_self] at hmissing
    exact ⟨_, _, (mul_eq_zero.1 hmissing).resolve_left hne⟩
  · rintro ⟨s, c, hzero⟩
    have hle := hleast s c
    rw [hzero] at hle
    rw [le_antisymm hle (squaredResiduals_nonneg ..), mul_zero] at hmissing
    linarith

theorem OnLine.of_constant_left (h : Constant xs) : OnLine xs ys := by
  cases xs with
  | nil => exact ⟨1, 0, 0, .inl one_ne_zero, by simp⟩
  | cons x xs =>
      refine ⟨1, 0, x, .inl one_ne_zero, fun p hp => ?_⟩
      have hp1 : p.1 ∈ x :: xs := (List.of_mem_zip hp).1
      rw [h p.1 hp1 x List.mem_cons_self]
      ring

theorem OnLine.of_constant_right (h : Constant ys) : OnLine xs ys := by
  cases ys with
  | nil => exact ⟨1, 0, 0, .inl one_ne_zero, by simp⟩
  | cons y ys =>
      refine ⟨0, 1, y, .inr one_ne_zero, fun p hp => ?_⟩
      have hp2 : p.2 ∈ y :: ys := (List.of_mem_zip hp).2
      rw [h p.2 hp2 y List.mem_cons_self]
      ring

theorem constant_of_vertical (hlength : xs.length = ys.length) {x : ℚ}
    (h : ∀ p ∈ xs.zip ys, p.1 = x) : Constant xs := by
  have hx : ∀ x' ∈ xs, x' = x := by
    intro x' hx'
    rw [← List.map_fst_zip hlength.le] at hx'
    obtain ⟨p, hp, rfl⟩ := List.mem_map.1 hx'
    exact h p hp
  intro x' hx' x'' hx''
  rw [hx x' hx', hx x'' hx'']

/-- The bound is reached by points on one line, and by no others. -/
theorem sq_coDeviation_eq_iff (hlength : xs.length = ys.length) :
    coDeviation xs ys ^ 2 = coDeviation xs xs * coDeviation ys ys ↔ OnLine xs ys := by
  by_cases hsxx : coDeviation xs xs = 0
  · have hzero : coDeviation xs ys ^ 2 = 0 := by
      apply le_antisymm _ (sq_nonneg _)
      have hle := sq_coDeviation_le hlength
      rwa [hsxx, zero_mul] at hle
    rw [hzero, hsxx, zero_mul]
    exact iff_of_true rfl (.of_constant_left (coDeviation_self_eq_zero.1 hsxx))
  · rw [sq_coDeviation_eq_iff_residuals hlength hsxx]
    constructor
    · rintro ⟨s, c, hzero⟩
      refine ⟨-s, 1, c, .inr one_ne_zero, fun p hp => ?_⟩
      rw [squaredResiduals_eq_zero_iff.1 hzero p hp]
      ring
    · rintro ⟨a, b, c, hab, hline⟩
      have hb : b ≠ 0 := by
        rintro rfl
        have ha : a ≠ 0 := hab.resolve_right (not_not.2 rfl)
        -- a vertical line would leave no two first coordinates
        refine hsxx (coDeviation_self_eq_zero.2 (constant_of_vertical hlength (x := c / a) ?_))
        intro p hp
        rw [← hline p hp]
        field_simp
        ring
      refine ⟨-a / b, c / b, squaredResiduals_eq_zero fun p hp => ?_⟩
      rw [← hline p hp]
      field_simp
      ring

/-- A rational sequence, taken as a real one. -/
def reals (xs : List ℚ) : List ℝ := xs.map (↑)

theorem length_reals (xs : List ℚ) : (reals xs).length = xs.length := List.length_map _

theorem sum_reals (xs : List ℚ) : (reals xs).sum = xs.sum :=
  (map_list_sum (Rat.castHom ℝ) xs).symm

theorem average_reals (xs : List ℚ) : average (reals xs) = average xs := by
  rw [average_rat, average, Scalar.sum_real, sum_reals, Rat.cast_div, length_reals]
  rfl

theorem coDeviation_reals (xs ys : List ℚ) :
    coDeviation (reals xs) (reals ys) = ((coDeviation xs ys : ℚ) : ℝ) := by
  have hterms : List.zipWith (fun x y => (x - average (reals xs)) * (y - average (reals ys)))
        (reals xs) (reals ys) =
      reals (List.zipWith (fun x y => (x - average xs) * (y - average ys)) xs ys) := by
    rw [average_reals, average_reals]
    simp only [reals, List.zipWith_map, List.map_zipWith, Rat.cast_mul, Rat.cast_sub]
  calc coDeviation (reals xs) (reals ys)
      = (reals (List.zipWith (fun x y => (x - average xs) * (y - average ys)) xs ys)).sum := by
        rw [← hterms]
        exact Scalar.sum_real _
    _ = ((coDeviation xs ys : ℚ) : ℝ) := by
        rw [sum_reals, ← Scalar.sum_rat]
        rfl

theorem clamp_eq_self {low high x : ℝ} (hlow : low ≤ x) (hhigh : x ≤ high) :
    clamp low high x = x := by
  have h : ¬ Scalar.less x low := by simpa using hlow
  have h' : ¬ Scalar.less high x := by simpa using hhigh
  simp only [clamp, if_neg h, if_neg h']

/-- The coefficient of two sequences before it is clamped. -/
noncomputable def coefficient (xs ys : List ℝ) : ℝ :=
  coDeviation xs ys / √(coDeviation xs xs * coDeviation ys ys)

theorem abs_coefficient_le (hlength : xs.length = ys.length) :
    |coefficient (reals xs) (reals ys)| ≤ 1 := by
  have hle : coDeviation (reals xs) (reals ys) ^ 2 ≤
      coDeviation (reals xs) (reals xs) * coDeviation (reals ys) (reals ys) := by
    rw [coDeviation_reals, coDeviation_reals, coDeviation_reals]
    exact_mod_cast sq_coDeviation_le hlength
  rw [coefficient, abs_div, abs_of_nonneg (Real.sqrt_nonneg _)]
  exact div_le_one_of_le₀ (Real.abs_le_sqrt hle) (Real.sqrt_nonneg _)

theorem coDeviation_reals_pos (h : ¬ Constant xs) :
    0 < coDeviation (reals xs) (reals xs) := by
  rw [coDeviation_reals, Rat.cast_pos]
  exact (coDeviation_self_nonneg xs).lt_of_ne' (mt coDeviation_self_eq_zero.1 h)

/-- A correlation fails where one of the sequences is constant. Elsewhere it is the
coefficient, which the clamp leaves as it is. -/
theorem correlation_cases (hlength : xs.length = ys.length) (hcount : 2 ≤ xs.length) :
    ((Constant xs ∨ Constant ys) ∧
      correlation (reals xs) (reals ys) = .error (.of (.argument .constantSequence))) ∨
    (¬ Constant xs ∧ ¬ Constant ys) ∧ ∃ r, correlation (reals xs) (reals ys) = .ok r ∧
      r.value = coefficient (reals xs) (reals ys) := by
  have hpairs : requirePairs "correlation" (reals xs) (reals ys) = .ok () :=
    requirePairs_eq_ok _ (by simpa only [length_reals]) (by rwa [length_reals])
  have hconstant (zs : List ℚ) :
      Scalar.isZero (coDeviation (reals zs) (reals zs)) = true ↔ Constant zs := by
    rw [Scalar.isZero_real, coDeviation_reals, Rat.cast_eq_zero]
    exact coDeviation_self_eq_zero
  rw [correlation, hpairs, ok_bind]
  dsimp only
  by_cases h : Constant xs ∨ Constant ys
  · refine .inl ⟨h, if_pos ?_⟩
    rwa [Bool.or_eq_true, hconstant, hconstant]
  · obtain ⟨hlow, hhigh⟩ := abs_le.1 (abs_coefficient_le hlength)
    refine .inr ⟨not_or.1 h, _, if_neg ?_, clamp_eq_self hlow hhigh⟩
    rwa [Bool.or_eq_true, hconstant, hconstant]

/-- The coefficient of determination is the square of the coefficient of correlation. -/
theorem rSquared_eq (hlength : xs.length = ys.length) (hcount : 2 ≤ xs.length)
    (hx : ¬ Constant xs) (hy : ¬ Constant ys) :
    ∃ fit, linearRegression xs ys = .ok fit ∧
      (fit.value.rSquared : ℝ) = coefficient (reals xs) (reals ys) ^ 2 := by
  have hsxx : coDeviation xs xs ≠ 0 := mt coDeviation_self_eq_zero.1 hx
  have hsyy : coDeviation ys ys ≠ 0 := mt coDeviation_self_eq_zero.1 hy
  have hpos := mul_pos (coDeviation_reals_pos hx) (coDeviation_reals_pos hy)
  obtain ⟨hzero, -⟩ | ⟨-, fit, hfit, -, hr⟩ := linearRegression_cases hlength hcount
  · exact absurd hzero hsxx
  · refine ⟨fit, hfit, ?_⟩
    rw [hr, if_neg hsyy, coefficient, div_pow, Real.sq_sqrt hpos.le, coDeviation_reals,
      coDeviation_reals, coDeviation_reals]
    push_cast
    ring

theorem rSquared_mem (hlength : xs.length = ys.length) (hcount : 2 ≤ xs.length)
    {fit : Measured (LinearFit ℚ)} (h : linearRegression xs ys = .ok fit) :
    0 ≤ fit.value.rSquared ∧ fit.value.rSquared ≤ 1 := by
  obtain ⟨-, herror⟩ | ⟨-, fit', hfit, -, hr⟩ := linearRegression_cases hlength hcount
  · rw [herror] at h
    cases h
  · cases hfit.symm.trans h
    rw [hr]
    split
    · exact ⟨zero_le_one, le_refl 1⟩
    · have hnonneg := mul_nonneg (coDeviation_self_nonneg xs) (coDeviation_self_nonneg ys)
      have hle := sq_coDeviation_le hlength
      rw [pow_two] at hle
      exact ⟨div_nonneg (mul_self_nonneg _) hnonneg, div_le_one_of_le₀ hle hnonneg⟩

/-- A correlation lies between minus one and one before it is clamped, its square is the
coefficient of determination, and only points on one line reach the bound. It fails exactly
where one of the sequences is constant, and elsewhere neither its root nor its quotient is
one of zero. -/
theorem correlation_bounded (xs ys : List ℚ) (hlength : xs.length = ys.length)
    (hcount : 2 ≤ xs.length) :
    coDeviation xs ys ^ 2 ≤ coDeviation xs xs * coDeviation ys ys ∧
    (coDeviation xs ys ^ 2 = coDeviation xs xs * coDeviation ys ys ↔
      OnLine xs ys ∨ Constant xs ∨ Constant ys) ∧
    (∀ fit, linearRegression xs ys = .ok fit →
      0 ≤ fit.value.rSquared ∧ fit.value.rSquared ≤ 1) ∧
    ((∃ failure, correlation (reals xs) (reals ys) = .error failure) ↔
      Constant xs ∨ Constant ys) ∧
    (∀ failure, correlation (reals xs) (reals ys) = .error failure →
      failure.kind = .invalidArgument) ∧
    ∀ r, correlation (reals xs) (reals ys) = .ok r →
      0 < coDeviation (reals xs) (reals xs) * coDeviation (reals ys) (reals ys) ∧
      0 < √(coDeviation (reals xs) (reals xs) * coDeviation (reals ys) (reals ys)) ∧
      r.value = coDeviation (reals xs) (reals ys) /
        √(coDeviation (reals xs) (reals xs) * coDeviation (reals ys) (reals ys)) ∧
      |r.value| ≤ 1 ∧
      ∃ fit, linearRegression xs ys = .ok fit ∧ (fit.value.rSquared : ℝ) = r.value ^ 2 := by
  refine ⟨sq_coDeviation_le hlength, ?_, fun fit => rSquared_mem hlength hcount, ?_⟩
  · rw [sq_coDeviation_eq_iff hlength, or_iff_left_of_imp]
    rintro (h | h)
    · exact .of_constant_left h
    · exact .of_constant_right h
  obtain ⟨hconstant, herror⟩ | ⟨⟨hx, hy⟩, r, hr, hvalue⟩ := correlation_cases hlength hcount
  · rw [herror]
    refine ⟨iff_of_true ⟨_, rfl⟩ hconstant, ?_, ?_⟩
    · rintro _ ⟨⟩
      rfl
    · rintro _ ⟨⟩
  · rw [hr]
    have hpos := mul_pos (coDeviation_reals_pos hx) (coDeviation_reals_pos hy)
    refine ⟨iff_of_false (by simp) (not_or.2 ⟨hx, hy⟩), ?_, ?_⟩
    · rintro _ ⟨⟩
    · rintro _ ⟨⟩
      rw [hvalue]
      exact ⟨hpos, Real.sqrt_pos.2 hpos, rfl, abs_coefficient_le hlength,
        rSquared_eq hlength hcount hx hy⟩

theorem correlation_bounded_scattered :
    coDeviation ([1, 2, 3, 4] : List ℚ) [2, 4, 5, 4] ^ 2 <
      coDeviation [1, 2, 3, 4] [1, 2, 3, 4] * coDeviation [2, 4, 5, 4] [2, 4, 5, 4] ∧
    ∃ r, correlation (reals [1, 2, 3, 4]) (reals [2, 4, 5, 4]) = .ok r ∧ |r.value| ≤ 1 := by
  obtain ⟨-, -, -, hfails, -, hok⟩ :=
    correlation_bounded [1, 2, 3, 4] [2, 4, 5, 4] rfl (by decide)
  refine ⟨by decide +kernel, ?_⟩
  cases h : correlation (reals [1, 2, 3, 4]) (reals [2, 4, 5, 4]) with
  | error failure =>
      obtain hx | hy := hfails.1 ⟨failure, h⟩
      · exact absurd (hx 1 (by decide) 2 (by decide)) (by decide)
      · exact absurd (hy 2 (by decide) 4 (by decide)) (by decide)
  | ok r =>
      obtain ⟨-, -, -, hle, -⟩ := hok r h
      exact ⟨r, rfl, hle⟩

end Reckon.Statistics
