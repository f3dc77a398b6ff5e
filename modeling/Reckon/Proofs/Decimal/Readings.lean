import Reckon.Proofs.Decimal.Values

/-!
What a decimal is read as depends on its value only, not on how it is spelled: decimals of one
value are read as one magnitude, and a decimal with the value of a finite magnitude as that one.
Which magnitude is read for another value is described elsewhere.
-/

namespace Reckon

theorem Binary64.nearest_congr {num den num' den' : Nat} (hd : 0 < den) (hd' : 0 < den')
    (h : num * den' = num' * den) : nearest num den = nearest num' den' := by
  have hscaled : (num <<< unitPlaces) * den' = (num' <<< unitPlaces) * den := by
    rw [Nat.shiftLeft_eq, Nat.shiftLeft_eq, Nat.mul_right_comm, h, Nat.mul_right_comm]
  rw [nearest_eq, nearest_eq]
  exact le_antisymm (nearestUnits_mono hd hd' hscaled.le) (nearestUnits_mono hd' hd hscaled.ge)

namespace Decimal

open Binary64 (magnitudeRat nearest)

variable {d d' : Decimal} {m : Nat}

theorem toRat_eq_zero : d.toRat = 0 ↔ d.coefficient = 0 := by
  have hpower : (10 : ℚ) ^ d.exponent ≠ 0 := by positivity
  rw [toRat, mul_eq_zero, or_iff_left hpower, Nat.cast_eq_zero]

theorem lead_eq_log (h : 0 < d.coefficient) : d.lead = Int.log 10 d.toRat + 1 := by
  obtain ⟨k, hk, hle, hlt⟩ := exists_length_toDigits h
  rw [lead, hk, log_toRat hle hlt]
  omega

/-- The fractions of decimals of one value are one, multiplied out. -/
theorem fraction_congr (h : d.toRat = d'.toRat) :
    d.coefficient * 10 ^ d.exponent.toNat * 10 ^ (-d'.exponent).toNat =
      d'.coefficient * 10 ^ d'.exponent.toNat * 10 ^ (-d.exponent).toNat := by
  rw [toRat, toRat, zpow_eq_div, zpow_eq_div, ← mul_div_assoc, ← mul_div_assoc,
    div_eq_div_iff (by positivity) (by positivity)] at h
  exact_mod_cast h

/-- Between the two limits, a decimal is read as the magnitude nearest to its fraction. -/
theorem bits_eq_nearest (h : d.coefficient ≠ 0) (hhigh : ¬310 < d.lead) (hlow : ¬d.lead < -330) :
    d.bits = nearest (d.coefficient * 10 ^ d.exponent.toNat) (10 ^ (-d.exponent).toNat) := by
  obtain ⟨coefficient, exponent⟩ := d
  rw [bits, if_neg h, if_neg hhigh, if_neg hlow]
  cases exponent with
  | ofNat e => simp
  | negSucc e => simp [Int.neg_negSucc]

/-- Decimals of one value are read as one magnitude. -/
theorem bits_congr (h : d.toRat = d'.toRat) : d.bits = d'.bits := by
  by_cases h0 : d.coefficient = 0
  · have h0' : d'.coefficient = 0 := toRat_eq_zero.1 (h ▸ toRat_eq_zero.2 h0)
    rw [bits, bits, if_pos h0, if_pos h0']
  · have h0' : d'.coefficient ≠ 0 := fun hzero => h0 (toRat_eq_zero.1 (h ▸ toRat_eq_zero.2 hzero))
    have hlead : d.lead = d'.lead := by
      rw [lead_eq_log (Nat.pos_of_ne_zero h0), lead_eq_log (Nat.pos_of_ne_zero h0'), h]
    by_cases hhigh : 310 < d.lead
    · have hhigh' : 310 < d'.lead := hlead ▸ hhigh
      rw [bits, bits, if_neg h0, if_neg h0', if_pos hhigh, if_pos hhigh']
    · have hhigh' : ¬310 < d'.lead := hlead ▸ hhigh
      by_cases hlow : d.lead < -330
      · have hlow' : d'.lead < -330 := hlead ▸ hlow
        rw [bits, bits, if_neg h0, if_neg h0', if_neg hhigh, if_neg hhigh', if_pos hlow,
          if_pos hlow']
      · rw [bits_eq_nearest h0 hhigh hlow, bits_eq_nearest h0' hhigh' (hlead ▸ hlow)]
        exact Binary64.nearest_congr (by positivity) (by positivity) (fraction_congr h)

theorem toRat_exact (m : Nat) : (exact m).toRat = magnitudeRat m := by
  have hexponent : (exact m).exponent = -(Binary64.unitPlaces : Int) := rfl
  have hone : (Binary64.one : ℚ) = 2 ^ Binary64.unitPlaces := by
    rw [Binary64.one, Nat.one_shiftLeft, Nat.cast_pow, Nat.cast_ofNat]
  have hten : (10 : ℚ) ^ Binary64.unitPlaces =
      5 ^ Binary64.unitPlaces * 2 ^ Binary64.unitPlaces := by
    rw [← mul_pow]
    norm_num
  rw [toRat, coefficient_exact, hexponent, zpow_neg, zpow_natCast, hten, magnitudeRat, hone]
  push_cast
  field_simp

/-- A decimal with the value of a finite magnitude is read as that magnitude. -/
theorem bits_of_toRat_eq (hm : m < Binary64.infinity) (h : d.toRat = magnitudeRat m) :
    d.bits = m := by
  obtain rfl | hpos := Nat.eq_zero_or_pos m
  · rw [bits, if_pos (toRat_eq_zero.1 (h.trans Binary64.magnitudeRat_zero))]
  · rw [bits_congr (h.trans (toRat_exact m).symm), exact_bits hpos hm]

end Decimal
end Reckon
