import Mathlib.Algebra.Ring.Nat
import Reckon.Proofs.Binary64.Sign

/-!
A fraction that is a finite binary64 number is rounded to that number. Only exact
fractions are considered; what the nearest number to any other fraction is stays
open.
-/

namespace Reckon

theorem roundHalfEven_of_dvd {num den : Nat} (hd : 0 < den) (h : den ∣ num) :
    roundHalfEven num den = num / den := by
  have hm : num % den = 0 := Nat.mod_eq_zero_of_dvd h
  simp [roundHalfEven, hm, hd]

namespace Binary64

variable {m : Nat}

theorem nearest_le (num den : Nat) : nearest num den ≤ infinity := by
  simp only [nearest]
  exact Nat.min_le_right _ _

theorem log2_mul_two_pow {n : Nat} (hn : 0 < n) (k : Nat) :
    (n * 2 ^ k).log2 = n.log2 + k := by
  have hp : n * 2 ^ k ≠ 0 := Nat.ne_of_gt (Nat.mul_pos hn (Nat.two_pow_pos k))
  obtain ⟨hle, hlt⟩ := (Nat.log2_eq_iff (Nat.ne_of_gt hn)).1 rfl
  rw [Nat.log2_eq_iff hp]
  constructor
  · rw [Nat.pow_add]
    exact Nat.mul_le_mul_right _ hle
  · rw [Nat.add_right_comm, Nat.pow_add]
    exact Nat.mul_lt_mul_of_pos_right hlt (Nat.two_pow_pos k)

/-- From the second binade on, a magnitude is a significand of 53 bits, scaled. -/
theorem units_eq_mul (h : 2 * binadeSize ≤ m) :
    units m = (m % binadeSize + binadeSize) * 2 ^ (m / binadeSize - 1) := by
  rw [units, if_neg (Nat.not_lt.2 h), Nat.shiftLeft_eq]

theorem units_pos (h : 0 < m) : 0 < units m := by
  by_cases hm : m < 2 * binadeSize
  · rwa [units, if_pos hm]
  · rw [units_eq_mul (Nat.not_lt.1 hm)]
    exact Nat.mul_pos (Nat.add_pos_right _ (by decide)) (Nat.two_pow_pos _)

/-- Finite magnitudes lie below `2 ^ 1024`. -/
theorem units_lt (h : m < infinity) : units m < 2 ^ (1024 + unitPlaces) := by
  by_cases hm : m < 2 * binadeSize
  · rw [units, if_pos hm]
    exact Nat.lt_trans hm (by decide +kernel)
  · have hq : m / binadeSize - 1 ≤ 2045 := by
      simp only [infinity, binadeSize] at h ⊢
      omega
    have hs : m % binadeSize + binadeSize < 2 ^ 53 := by
      simp only [binadeSize]
      omega
    rw [units_eq_mul (Nat.not_lt.1 hm)]
    calc (m % binadeSize + binadeSize) * 2 ^ (m / binadeSize - 1)
        < 2 ^ 53 * 2 ^ (m / binadeSize - 1) :=
          Nat.mul_lt_mul_of_pos_right hs (Nat.two_pow_pos _)
      _ = 2 ^ (53 + (m / binadeSize - 1)) := by rw [Nat.pow_add]
      _ ≤ 2 ^ (1024 + unitPlaces) :=
          Nat.pow_le_pow_right (by decide) (by simp only [unitPlaces]; omega)

/-- The binade that rounding starts from, and what is left of the units in it. -/
theorem binade_units (m : Nat) :
    ∃ k, (units m).log2 - 52 = k ∧ 2 ^ k ∣ units m ∧ k * binadeSize + units m / 2 ^ k = m := by
  by_cases hm : m < 2 * binadeSize
  · have hu : units m = m := by rw [units, if_pos hm]
    have hlog : m.log2 - 52 = 0 := by
      by_cases h0 : m = 0
      · simp [h0]
      · have hlt : m.log2 < 53 := (Nat.log2_lt h0).2 (by simpa [binadeSize] using hm)
        omega
    exact ⟨0, by rw [hu, hlog], by simp, by simp [hu]⟩
  · rw [Nat.not_lt] at hm
    have hs : (m % binadeSize + binadeSize).log2 = 52 := by
      rw [Nat.log2_eq_iff (by simp [binadeSize])]
      simp only [binadeSize]
      omega
    refine ⟨m / binadeSize - 1, ?_, ?_, ?_⟩
    · rw [units_eq_mul hm, log2_mul_two_pow (Nat.add_pos_right _ (by decide)), hs]
      omega
    · rw [units_eq_mul hm]
      exact Nat.dvd_mul_left _ _
    · rw [units_eq_mul hm, Nat.mul_div_cancel _ (Nat.two_pow_pos _)]
      simp only [binadeSize] at hm ⊢
      omega

theorem nearest_of_exact {num den : Nat} (hm : m < infinity) (hd : 0 < den)
    (h : num * 2 ^ unitPlaces = units m * den) : nearest num den = m := by
  obtain ⟨k, hlog, hdvd, hsum⟩ := binade_units m
  have hdiv : units m * den / den = units m := Nat.mul_div_cancel _ hd
  have hround : roundHalfEven (units m * den) (den <<< k) = units m / 2 ^ k := by
    rw [Nat.shiftLeft_eq, Nat.mul_comm den, roundHalfEven_of_dvd
      (Nat.mul_pos (Nat.two_pow_pos k) hd) (Nat.mul_dvd_mul_right hdvd den),
      Nat.mul_div_mul_right _ _ hd]
  simp only [nearest, Nat.shiftLeft_eq num, h, hdiv, hlog, hround, hsum]
  exact Nat.min_eq_left (Nat.le_of_lt hm)

end Binary64
end Reckon
