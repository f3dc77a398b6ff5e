import Mathlib.Data.Int.Log
import Reckon.Proofs.Binary64.Rational
import Reckon.Proofs.Decimal.Positional

/-!
The exact values of decimals and of magnitudes, as rational numbers. A magnitude that is rounded
to a multiple of a power of ten is off by no more than half of that power; with the power taken
from the magnitude's first digit, the number of digits is fixed.
-/

namespace Reckon

/-- What is rounded to a whole number is off by no more than a half. -/
theorem abs_roundHalfEven_sub_le {den : Nat} (hd : 0 < den) (num : Nat) :
    |(roundHalfEven num den : ℚ) - num / den| ≤ 1 / 2 := by
  obtain ⟨hle, hge⟩ := roundHalfEven_error hd num
  have hle' : (2 * num : ℚ) ≤ 2 * (roundHalfEven num den * den) + den := by exact_mod_cast hle
  have hge' : (2 * (roundHalfEven num den * den) : ℚ) ≤ 2 * num + den := by exact_mod_cast hge
  have hden : (0 : ℚ) < den := by exact_mod_cast hd
  rw [abs_le, neg_le_sub_iff_le_add, div_le_iff₀ hden, sub_le_comm, le_div_iff₀ hden]
  constructor <;> linarith

namespace Decimal

open Binary64 (magnitudeRat units oneUnits_pos oneUnits_pos_rat magnitudeRat_pos)

variable {bits : Nat} {exponent : Int}

/-- The exact value. -/
def toRat (d : Decimal) : ℚ := d.coefficient * 10 ^ d.exponent

theorem toRat_pos {d : Decimal} (h : 0 < d.coefficient) : 0 < d.toRat :=
  mul_pos (by exact_mod_cast h) (by positivity)

theorem natCast_pow_mul_zpow (k : Nat) (exponent : Int) :
    ((10 ^ k : Nat) : ℚ) * 10 ^ exponent = 10 ^ (exponent + k) := by
  rw [Nat.cast_pow, Nat.cast_ofNat, ← zpow_natCast, ← zpow_add₀ (by decide), Int.add_comm]

section Decade

theorem exists_length_toDigits {n : Nat} (hn : 0 < n) :
    ∃ k, (Nat.toDigits 10 n).length = k + 1 ∧ 10 ^ k ≤ n ∧ n < 10 ^ (k + 1) := by
  obtain ⟨k, hk⟩ := Nat.exists_eq_add_one.2 (Nat.length_toDigits_pos (b := 10) (n := n))
  refine ⟨k, hk, ?_, (Nat.length_toDigits_le_iff (by decide) (Nat.succ_pos k)).1 hk.le⟩
  cases k with
  | zero => exact hn
  | succ k =>
      by_contra! hlt
      have hle := (Nat.length_toDigits_le_iff (by decide) (Nat.succ_pos k)).2 hlt
      omega

theorem log_eq_of_bounds {r : ℚ} {k : Int} (hle : (10 : ℚ) ^ k ≤ r) (hlt : r < 10 ^ (k + 1)) :
    Int.log 10 r = k := by
  have hpos : 0 < r := lt_of_lt_of_le (by positivity) hle
  apply le_antisymm
  · exact Int.lt_add_one_iff.1 ((Int.lt_zpow_iff_log_lt (by decide) hpos).1 hlt)
  · exact (Int.zpow_le_iff_le_log (by decide) hpos).1 hle

/-- A coefficient of `k + 1` digits has its first one `k` places above the exponent. -/
theorem log_toRat {d : Decimal} {k : Nat} (hle : 10 ^ k ≤ d.coefficient)
    (hlt : d.coefficient < 10 ^ (k + 1)) : Int.log 10 d.toRat = d.exponent + k := by
  apply log_eq_of_bounds
  · rw [← natCast_pow_mul_zpow, toRat]
    gcongr
  · rw [Int.add_assoc, ← Int.natCast_add_one, ← natCast_pow_mul_zpow, toRat]
    gcongr

/-- The exponent of the first digit is the magnitude's decimal logarithm, rounded down. -/
theorem decade_eq_log (h : 0 < bits) : decade bits = Int.log 10 (magnitudeRat bits) := by
  have hunits := Binary64.units_pos h
  symm
  unfold decade
  dsimp only
  split
  · rename_i hone
    obtain ⟨k, hk, hle, hlt⟩ := exists_length_toDigits (Nat.div_pos hone oneUnits_pos)
    rw [Nat.le_div_iff_mul_le oneUnits_pos] at hle
    rw [Nat.div_lt_iff_lt_mul oneUnits_pos] at hlt
    rw [hk, Int.natCast_add_one, Int.add_sub_cancel]
    apply log_eq_of_bounds
    · rw [magnitudeRat, le_div_iff₀ oneUnits_pos_rat, zpow_natCast]
      exact_mod_cast hle
    · rw [magnitudeRat, div_lt_iff₀ oneUnits_pos_rat]
      exact_mod_cast hlt
  · -- one is taken less a unit, so that a power of ten still counts as the tenth part of the next
    rename_i hone
    have hrest : 0 < (Binary64.one - 1) / units bits := Nat.div_pos (by omega) hunits
    obtain ⟨k, hk, hle, hlt⟩ := exists_length_toDigits hrest
    rw [Nat.le_div_iff_mul_le hunits] at hle
    rw [Nat.div_lt_iff_lt_mul hunits] at hlt
    rw [hk]
    apply log_eq_of_bounds
    · have hge : Binary64.one ≤ 10 ^ (k + 1) * units bits := by omega
      rw [magnitudeRat, le_div_iff₀ oneUnits_pos_rat, zpow_neg, inv_mul_le_iff₀ (by positivity)]
      exact_mod_cast hge
    · have hbelow : 10 ^ k * units bits < Binary64.one := by omega
      rw [magnitudeRat, div_lt_iff₀ oneUnits_pos_rat, Int.natCast_add_one, Int.neg_add,
        Int.neg_add_cancel_right, zpow_neg, lt_inv_mul_iff₀ (by positivity)]
      exact_mod_cast hbelow

theorem zpow_decade_le (h : 0 < bits) : (10 : ℚ) ^ decade bits ≤ magnitudeRat bits := by
  rw [decade_eq_log h]
  exact Int.zpow_log_le_self (by decide) (magnitudeRat_pos h)

theorem lt_zpow_decade_add_one (h : 0 < bits) :
    magnitudeRat bits < (10 : ℚ) ^ (decade bits + 1) := by
  rw [decade_eq_log h]
  exact Int.lt_zpow_succ_log_self (by decide) _

end Decade

section Steps

theorem zpow_eq_div (exponent : Int) :
    (10 : ℚ) ^ exponent = 10 ^ exponent.toNat / 10 ^ (-exponent).toNat := by
  obtain ⟨n, rfl | rfl⟩ := exponent.eq_nat_or_neg <;> simp

/-- A magnitude in steps, before it is rounded. -/
theorem steps_fraction (bits : Nat) (exponent : Int) :
    ((units bits * 10 ^ (-exponent).toNat : Nat) : ℚ) /
      ((Binary64.one * 10 ^ exponent.toNat : Nat) : ℚ) = magnitudeRat bits / 10 ^ exponent := by
  have hone := oneUnits_pos_rat.ne'
  rw [magnitudeRat, zpow_eq_div]
  push_cast
  field_simp

theorem steps_den_pos (exponent : Int) : 0 < Binary64.one * 10 ^ exponent.toNat :=
  Nat.mul_pos oneUnits_pos (Nat.pow_pos (by decide))

/-- A multiple of a power of ten that a magnitude is rounded to is off by half of it at most. -/
theorem abs_steps_sub_le (bits : Nat) (exponent : Int) :
    |steps roundHalfEven bits exponent * 10 ^ exponent - magnitudeRat bits| ≤
      10 ^ exponent / 2 := by
  have hpos : (0 : ℚ) < 10 ^ exponent := by positivity
  have hround := abs_roundHalfEven_sub_le (steps_den_pos exponent)
    (units bits * 10 ^ (-exponent).toNat)
  rw [steps_fraction] at hround
  calc |steps roundHalfEven bits exponent * 10 ^ exponent - magnitudeRat bits|
      = |steps roundHalfEven bits exponent - magnitudeRat bits / 10 ^ exponent| *
          10 ^ exponent := by
        rw [← abs_of_pos hpos, ← abs_mul, abs_of_pos hpos, sub_mul, div_mul_cancel₀ _ hpos.ne']
    _ ≤ 1 / 2 * 10 ^ exponent := mul_le_mul_of_nonneg_right hround hpos.le
    _ = 10 ^ exponent / 2 := by ring

theorem le_steps {m : Nat} (h : m * 10 ^ exponent ≤ magnitudeRat bits) :
    m ≤ steps roundHalfEven bits exponent := by
  have hpos : (0 : ℚ) < 10 ^ exponent := by positivity
  rw [← le_div_iff₀ hpos, ← steps_fraction, le_div_iff₀ (by exact_mod_cast steps_den_pos exponent)]
    at h
  exact le_roundHalfEven (steps_den_pos exponent) (by exact_mod_cast h)

theorem steps_le {m : Nat} (h : magnitudeRat bits ≤ m * 10 ^ exponent) :
    steps roundHalfEven bits exponent ≤ m := by
  have hpos : (0 : ℚ) < 10 ^ exponent := by positivity
  rw [← div_le_iff₀ hpos, ← steps_fraction, div_le_iff₀ (by exact_mod_cast steps_den_pos exponent)]
    at h
  exact roundHalfEven_le (steps_den_pos exponent) (by exact_mod_cast h)

theorem abs_fixed_sub_le (places bits : Nat) :
    |(fixed places bits).toRat - magnitudeRat bits| ≤ 10 ^ (-places : Int) / 2 :=
  abs_steps_sub_le bits (-places)

/-- A coefficient of `count + 1` digits, whether or not rounding has moved its first one. -/
theorem significant_bounds (count : Nat) (h : 0 < bits) :
    10 ^ count ≤ (significant count bits).coefficient ∧
      (significant count bits).coefficient < 10 ^ (count + 1) := by
  -- rounding may reach the next power of ten, but not pass it
  have hle : 10 ^ count ≤ steps roundHalfEven bits (decade bits - count) := by
    apply le_steps
    rw [natCast_pow_mul_zpow, Int.sub_add_cancel]
    exact zpow_decade_le h
  have hge : steps roundHalfEven bits (decade bits - count) ≤ 10 ^ (count + 1) := by
    apply steps_le
    rw [natCast_pow_mul_zpow, Int.natCast_add_one, ← Int.add_assoc, Int.sub_add_cancel]
    exact (lt_zpow_decade_add_one h).le
  unfold significant
  dsimp only
  split
  · exact ⟨le_rfl, Nat.pow_lt_pow_right (by decide) (Nat.lt_succ_self count)⟩
  · rename_i hne
    exact ⟨hle, lt_of_le_of_ne hge hne⟩

theorem toRat_significant (count bits : Nat) :
    (significant count bits).toRat =
      steps roundHalfEven bits (decade bits - count) * 10 ^ (decade bits - count) := by
  unfold significant
  dsimp only
  split
  · rename_i heq
    rw [heq, toRat, zpow_add_one₀ (by decide)]
    push_cast [Nat.pow_eq, pow_succ]
    ring
  · rfl

theorem abs_significant_sub_le (count bits : Nat) :
    |(significant count bits).toRat - magnitudeRat bits| ≤ 10 ^ (decade bits - count) / 2 := by
  rw [toRat_significant]
  exact abs_steps_sub_le bits _

end Steps

section Zeros

variable {whole fraction : List Char}

/-- Zeros at the end of a fraction change nothing. -/
theorem toRat_ofDigits_append_zeros (k : Nat) (scale : Int) :
    (ofDigits whole (fraction ++ List.replicate k '0') scale).toRat =
      (ofDigits whole fraction scale).toRat := by
  have hscale : (10 : ℚ) ^ (scale - (fraction.length + k : Nat)) * 10 ^ k =
      10 ^ (scale - fraction.length) := by
    rw [← zpow_natCast, ← zpow_add₀ (by decide)]
    congr 1
    omega
  rw [ofDigits, ofDigits, toRat, toRat, ← List.append_assoc, Nat.ofDigitChars_append,
    Nat.ofDigitChars_replicate_zero, List.length_append, List.length_replicate, ← hscale]
  push_cast
  ring

end Zeros

end Decimal
end Reckon
