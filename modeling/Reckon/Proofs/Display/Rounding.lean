import Reckon.Proofs.Display.Trimming

/-!
Displayed numbers are correctly rounded. A number in the plain range is off by half a unit of the
tenth place at most, any other by half a unit of its tenth significant digit, and what is displayed
is one numeral in either case.
-/

namespace Reckon.Display

open Binary64 (magnitudeRat units oneUnits_pos_rat magnitudeRat_pos not_isNaN_abs)

variable {x : Binary64} {bits : Nat}

section Range

/-- The magnitudes that are written without an exponent, zero apart. -/
def Plain (x : Binary64) : Prop := scientificBelow ≤ x.abs ∧ x.abs < scientificFrom

theorem place_scientificBelow : scientificBelow.place = 0x3EB0C6F7A0B5ED8D := by decide +kernel

theorem scientificBelow_le_abs (h : x.isFinite) :
    scientificBelow ≤ x.abs ↔ 0x3EB0C6F7A0B5ED8D ≤ x.magnitude := by
  rw [Binary64.le_iff (by decide +kernel) (not_isNaN_abs h), place_scientificBelow,
    Binary64.place_abs]
  omega

theorem magnitude_of_plain (h : x.isFinite) (hp : Plain x) :
    magnitude x = if x.isWhole then Nat.toDigits 10 x.floorMagnitude
      else trimFraction (Decimal.fixed places x.magnitude).positional := by
  have hfrom : ¬ x.abs ≥ scientificFrom :=
    (Binary64.not_le (by decide +kernel) (not_isNaN_abs h)).2 hp.2
  have hbelow : ¬ x.abs < scientificBelow := by
    rw [← Binary64.not_le (by decide +kernel) (not_isNaN_abs h), not_not]
    exact hp.1
  simp only [magnitude, hfrom, hbelow, decide_false, Bool.or_self, Bool.false_eq_true, if_false]

theorem magnitude_of_not_plain (h : x.isFinite) (hp : ¬Plain x) :
    magnitude x = scientific x.magnitude := by
  have hout : x.abs ≥ scientificFrom ∨ x.abs < scientificBelow := by
    rw [Plain, not_and_or] at hp
    rw [or_comm]
    refine hp.imp (Binary64.not_le (by decide +kernel) (not_isNaN_abs h)).1 fun hfrom => ?_
    rw [← Binary64.not_le (by decide +kernel) (not_isNaN_abs h), not_not] at hfrom
    exact hfrom
  rw [magnitude, if_pos]
  simpa using hout

end Range

section Plain

theorem le_magnitudeRat_of_plain (h : x.isFinite) (hp : Plain x) :
    1 / 10 ^ 10 ≤ magnitudeRat x.magnitude := by
  have hsmall : Binary64.one ≤ units 0x3EB0C6F7A0B5ED8D * 10 ^ 10 := by decide +kernel
  have hunits := Binary64.units_strictMono.monotone ((scientificBelow_le_abs h).1 hp.1)
  have hle : Binary64.one ≤ units x.magnitude * 10 ^ 10 :=
    hsmall.trans (Nat.mul_le_mul_right _ hunits)
  rw [magnitudeRat, div_le_div_iff₀ (by positivity) oneUnits_pos_rat, one_mul]
  exact_mod_cast hle

/-- A whole number of the plain range is written as it is. -/
theorem magnitude_plain_whole (h : x.isFinite) (hp : Plain x) (hwhole : x.isWhole) :
    magnitude x = (Numeral.mk (Nat.toDigits 10 x.floorMagnitude) none none).text ∧
      (Numeral.mk (Nat.toDigits 10 x.floorMagnitude) none none).value.toRat =
        magnitudeRat x.magnitude := by
  constructor
  · rw [magnitude_of_plain h hp, if_pos hwhole]
    simp [Numeral.text]
  · rw [Binary64.magnitudeRat_of_isWhole hwhole]
    simp [Numeral.value, Decimal.ofDigits, Decimal.toRat]

/-- Any other number of the plain range is written with ten places, rounded, and is far enough
from zero not to be written as zero. -/
theorem magnitude_plain_fixed (h : x.isFinite) (hp : Plain x) (hwhole : ¬x.isWhole) :
    ∃ coefficient, 0 < coefficient ∧ magnitude x = (shown 10 coefficient none).text ∧
      |(shown 10 coefficient none).value.toRat - magnitudeRat x.magnitude| ≤ 1 / 2 / 10 ^ 10 := by
  refine ⟨(Decimal.fixed places x.magnitude).coefficient, ?_, ?_, ?_⟩
  · apply Decimal.le_steps
    calc ((0 + 1 : Nat) : ℚ) * 10 ^ (-(places : Int)) = 1 / 10 ^ 10 := by norm_num [places]
      _ ≤ magnitudeRat x.magnitude := le_magnitudeRat_of_plain h hp
  · rw [magnitude_of_plain h hp, if_neg hwhole]
    exact trimFraction_positional 9 _
  · rw [toRat_value_shown]
    calc |(Decimal.fixed places x.magnitude).toRat - magnitudeRat x.magnitude|
        ≤ 10 ^ (-(places : Int)) / 2 := Decimal.abs_fixed_sub_le places x.magnitude
      _ = 1 / 2 / 10 ^ 10 := by norm_num [places]

/-- A number of the plain range is written as one numeral without an exponent. -/
theorem magnitude_plain (h : x.isFinite) (hp : Plain x) :
    ∃ n : Numeral, magnitude x = n.text ∧ n.Trimmed ∧ n.scale = none ∧
      (∀ digits ∈ n.fraction, digits.length ≤ 10) ∧ 0 < n.value.toRat ∧
      |n.value.toRat - magnitudeRat x.magnitude| ≤ 1 / 2 / 10 ^ 10 ∧
      (x.isWhole → n.value.toRat = magnitudeRat x.magnitude) := by
  have hpos : 0 < magnitudeRat x.magnitude :=
    lt_of_lt_of_le (by positivity) (le_magnitudeRat_of_plain h hp)
  by_cases hwhole : x.isWhole
  · obtain ⟨htext, hvalue⟩ := magnitude_plain_whole h hp hwhole
    refine ⟨_, htext, ?_, rfl, by rintro _ ⟨⟩, hvalue ▸ hpos, ?_, fun _ => hvalue⟩
    · refine Numeral.WellFormed.trimmed ⟨fun _ hc => Decimal.isDigit_of_mem_toDigits hc, ?_, ?_⟩
        Nat.toDigits_ne_nil ?_ <;> rintro _ ⟨⟩
    · rw [hvalue, sub_self, abs_zero]
      positivity
  · obtain ⟨coefficient, hcoefficient, htext, herror⟩ := magnitude_plain_fixed h hp hwhole
    refine ⟨_, htext, trimmed_shown (by rintro _ ⟨⟩), rfl, length_fraction_shown, ?_, herror,
      fun hw => absurd hw hwhole⟩
    rw [toRat_value_shown]
    exact Decimal.toRat_pos hcoefficient

end Plain

section Scientific

/-- An exponent as it is written: no sign but a minus, and no zeros in front. -/
def exponentScale (exponent : Int) : Numeral.Scale :=
  ⟨'e', if exponent < 0 then ['-'] else [], Nat.toDigits 10 exponent.natAbs⟩

theorem wellFormed_exponentScale (exponent : Int) : (exponentScale exponent).WellFormed where
  mark := .inl rfl
  sign := by
    rw [exponentScale]
    split
    · exact .inr (.inr rfl)
    · exact .inl rfl
  nonempty := Nat.toDigits_ne_nil
  digits _ hc := Decimal.isDigit_of_mem_toDigits hc

theorem value_exponentScale (exponent : Int) : (exponentScale exponent).value = exponent := by
  simp only [exponentScale, Numeral.Scale.value, Nat.ofDigitChars_ten_toDigits]
  by_cases h : exponent < 0
  · rw [if_pos h, if_pos rfl]
    omega
  · rw [if_neg h, if_neg (by decide)]
    omega

theorem scientific_eq_text (bits : Nat) :
    scientific bits = (shown 9 (Decimal.significant 9 bits).coefficient
      (some (exponentScale ((Decimal.significant 9 bits).exponent + 9)))).text := by
  rw [shown, Numeral.text_trimmed_some, ← shown, ← trimFraction_positional]
  exact List.append_assoc ..

/-- A mantissa has one digit in front of its point. -/
theorem length_whole_shown {coefficient : Nat} {scale : Option Numeral.Scale}
    (h : coefficient < 10 ^ 10) : (shown 9 coefficient scale).whole.length = 1 := by
  have hlt : coefficient / 10 ^ 9 < 10 := Nat.div_lt_of_lt_mul h
  rw [shown, Numeral.trimmed, Nat.toDigits_of_lt_base hlt]
  rfl

/-- Any number but zero can be written with ten significant digits and an exponent. -/
theorem scientific_spec (h : 0 < bits) :
    ∃ n : Numeral, scientific bits = n.text ∧ n.Trimmed ∧ n.whole.length = 1 ∧
      (∀ digits ∈ n.fraction, digits.length ≤ 9) ∧
      n.scale = some (exponentScale (Int.log 10 n.value.toRat)) ∧ 0 < n.value.toRat ∧
      |n.value.toRat - magnitudeRat bits| ≤
        1 / 2 * 10 ^ (Int.log 10 (magnitudeRat bits) - 9) := by
  obtain ⟨hle, hlt⟩ := Decimal.significant_bounds 9 h
  have herror := Decimal.abs_significant_sub_le 9 bits
  rw [Decimal.decade_eq_log h] at herror
  have hvalue : (shown 9 (Decimal.significant 9 bits).coefficient
      (some (exponentScale ((Decimal.significant 9 bits).exponent + 9)))).value.toRat =
        (Decimal.significant 9 bits).toRat := by
    rw [toRat_value_shown]
    simp [value_exponentScale]
  have hlog : Int.log 10 (Decimal.significant 9 bits).toRat =
      (Decimal.significant 9 bits).exponent + 9 := Decimal.log_toRat hle hlt
  refine ⟨_, scientific_eq_text bits, trimmed_shown ?_, length_whole_shown hlt,
    length_fraction_shown, ?_, ?_, ?_⟩
  · rintro _ ⟨⟩
    exact wellFormed_exponentScale _
  · rw [hvalue, hlog]
    rfl
  · rw [hvalue]
    exact Decimal.toRat_pos (lt_of_lt_of_le (by decide) hle)
  · rw [hvalue]
    refine herror.trans_eq ?_
    rw [Nat.cast_ofNat]
    ring

end Scientific

section Signed

theorem numberChars_of_magnitude_eq_zero (h : x.magnitude = 0) : numberChars x = ['0'] := by
  rw [numberChars, Binary64.isNaN, Binary64.isInf, Binary64.isZero, h]
  rfl

theorem numberChars_of_magnitude_pos (h : x.isFinite) (hpos : 0 < x.magnitude) :
    numberChars x = if x.toRat < 0 then '-' :: magnitude x else magnitude x := by
  have hnan : x.isNaN = false := Bool.eq_false_iff.2 (Binary64.not_isNaN_of_isFinite h)
  have hinf : x.isInf = false := beq_false_of_ne (Nat.ne_of_lt (of_decide_eq_true h))
  have hzero : x.isZero = false := beq_false_of_ne (Nat.ne_of_gt hpos)
  simp only [numberChars, hnan, hinf, hzero, Bool.false_eq_true, if_false,
    Binary64.isNegative_iff_toRat_neg hpos]

/-- The value of a numeral behind the sign of a number. -/
def signed (value : ℚ) (n : Numeral) : ℚ := if value < 0 then -n.value.toRat else n.value.toRat

theorem abs_signed_sub (x : Binary64) (n : Numeral) :
    |signed x.toRat n - x.toRat| = |n.value.toRat - magnitudeRat x.magnitude| := by
  rw [← Binary64.abs_toRat, signed]
  split
  · rename_i hneg
    rw [abs_of_neg hneg, ← abs_neg]
    congr 1
    ring
  · rename_i hneg
    rw [abs_of_nonneg (not_lt.1 hneg)]

theorem abs_signed {value : ℚ} {n : Numeral} (h : 0 < n.value.toRat) :
    |signed value n| = n.value.toRat := by
  rw [signed]
  split
  · rw [abs_neg, abs_of_pos h]
  · rw [abs_of_pos h]

theorem signed_ne_zero {value : ℚ} {n : Numeral} (h : 0 < n.value.toRat) : signed value n ≠ 0 := by
  rw [← abs_pos, abs_signed h]
  exact h

/-- What is displayed for a finite number: the numeral `n`, which stands for `q` with the sign of
the number. The ends of the plain range are numbers themselves, the nearest ones to a millionth
and to ten thousand millions. -/
structure Rounds (x : Binary64) (n : Numeral) (q : ℚ) : Prop where
  text : numberChars x = if x.toRat < 0 then '-' :: n.text else n.text
  trimmed : n.Trimmed
  value : q = if x.toRat < 0 then -n.value.toRat else n.value.toRat
  eq_zero : q = 0 ↔ x.toRat = 0
  zero : x.toRat = 0 → n.text = ['0']
  plain : 1e-6 ≤ x.abs ∧ x.abs < 1e10 →
    n.scale = none ∧ (∀ digits ∈ n.fraction, digits.length ≤ 10) ∧
      |q - x.toRat| ≤ 1 / 2 / 10 ^ 10 ∧ ((∃ k : Int, x.toRat = k) → q = x.toRat)
  scientific : ¬(1e-6 ≤ x.abs ∧ x.abs < 1e10) → x.toRat ≠ 0 →
    n.whole.length = 1 ∧ (∀ digits ∈ n.fraction, digits.length ≤ 9) ∧
      n.scale = some (exponentScale (Int.log 10 |q|)) ∧
      |q - x.toRat| ≤ 1 / 2 * 10 ^ (Int.log 10 |x.toRat| - 9)

theorem rounds_zero (h : x.magnitude = 0) : Rounds x ⟨['0'], none, none⟩ 0 := by
  have hrat : x.toRat = 0 := Binary64.toRat_eq_zero.2 h
  have hvalue : (Numeral.mk ['0'] none none).value = ⟨0, 0⟩ := rfl
  constructor
  case text => rw [numberChars_of_magnitude_eq_zero h, hrat, if_neg (lt_irrefl 0)]; rfl
  case trimmed => exact ⟨rfl, rfl, by rintro _ ⟨⟩⟩
  case value => rw [hrat, if_neg (lt_irrefl 0), hvalue, Decimal.toRat, Nat.cast_zero, zero_mul]
  case eq_zero => exact iff_of_true rfl hrat
  case zero => exact fun _ => rfl
  case plain =>
    refine fun _ => ⟨rfl, by rintro _ ⟨⟩, ?_, fun _ => hrat.symm⟩
    rw [hrat, sub_self, abs_zero]
    positivity
  case scientific => exact fun _ hne => absurd hrat hne

theorem exists_rounds_of_plain (h : x.isFinite) (hpos : 0 < x.magnitude) (hp : Plain x) :
    ∃ n, Rounds x n (signed x.toRat n) := by
  have hrat : x.toRat ≠ 0 := fun h0 => hpos.ne' (Binary64.toRat_eq_zero.1 h0)
  obtain ⟨n, htext, htrimmed, hscale, hdigits, hvalue, herror, hwhole⟩ := magnitude_plain h hp
  refine ⟨n, ?_⟩
  constructor
  case text => rw [numberChars_of_magnitude_pos h hpos, htext]
  case trimmed => exact htrimmed
  case value => rfl
  case eq_zero => exact iff_of_false (signed_ne_zero hvalue) hrat
  case zero => exact fun h0 => absurd h0 hrat
  case plain =>
    refine fun _ => ⟨hscale, hdigits, (abs_signed_sub x n).trans_le herror, fun ⟨k, hk⟩ => ?_⟩
    rw [← sub_eq_zero, ← abs_eq_zero, abs_signed_sub,
      hwhole (Binary64.isWhole_of_toRat_eq h hk), sub_self, abs_zero]
  case scientific => exact fun hnot => absurd hp hnot

theorem exists_rounds_of_not_plain (h : x.isFinite) (hpos : 0 < x.magnitude) (hp : ¬Plain x) :
    ∃ n, Rounds x n (signed x.toRat n) := by
  have hrat : x.toRat ≠ 0 := fun h0 => hpos.ne' (Binary64.toRat_eq_zero.1 h0)
  obtain ⟨n, htext, htrimmed, hone, hdigits, hscale, hvalue, herror⟩ := scientific_spec hpos
  refine ⟨n, ?_⟩
  constructor
  case text => rw [numberChars_of_magnitude_pos h hpos, magnitude_of_not_plain h hp, htext]
  case trimmed => exact htrimmed
  case value => rfl
  case eq_zero => exact iff_of_false (signed_ne_zero hvalue) hrat
  case zero => exact fun h0 => absurd h0 hrat
  case plain => exact fun hyes => absurd hyes hp
  case scientific =>
    intro _ _
    rw [abs_signed_sub, abs_signed hvalue, Binary64.abs_toRat]
    exact ⟨hone, hdigits, hscale, herror⟩

/-- Every finite number is displayed as one numeral, with a minus in front exactly if the number
is negative, and the numeral is zero for zero only. In the plain range it has no exponent and ten
places at most, and it is the number itself if that is whole; otherwise it has one digit before
the point, nine at most behind it, and an exponent. It is off by half a unit of the last of these
places at most. -/
theorem numberChars_rounds (h : x.isFinite) : ∃ n q, Rounds x n q := by
  obtain hzero | hpos := Nat.eq_zero_or_pos x.magnitude
  · exact ⟨_, _, rounds_zero hzero⟩
  · by_cases hp : Plain x
    · obtain ⟨n, hn⟩ := exists_rounds_of_plain h hpos hp
      exact ⟨n, _, hn⟩
    · obtain ⟨n, hn⟩ := exists_rounds_of_not_plain h hpos hp
      exact ⟨n, _, hn⟩

/-- A number that is rounded up to the next power of ten. -/
theorem numberChars_rounds_carry :
    (99999999999.5 : Binary64).isFinite ∧ ∃ n q, Rounds 99999999999.5 n q :=
  ⟨by decide +kernel, numberChars_rounds (by decide +kernel)⟩

example : numberChars 99999999999.5 = "1e11".toList := by decide +kernel

end Signed

end Reckon.Display
