import Reckon.Proofs.Binary64.Unpacked

/-!
Zeros in products and sums. A zero times a finite number is a zero, and times anything else
no number. A zero added to anything but negative zero changes nothing, and a sum that does not
start from negative zero never comes to it: finite numbers are whole multiples of the least
one, so that a sum of two of them is cancelled to positive zero or not rounded to zero at all.
-/

namespace Reckon.Binary64

open Float.Model (Format UnpackedFloat totalExponent)
open Float.Model.UnpackedFloat

section Rounding

theorem targetExponent_eq (t : Int) :
    Format.binary64.targetExponent t = max (t - 53) (-1074) := rfl

theorem mantissa_shiftRight (m : ExtendedMantissa) (k : Nat) :
    (m >>> k).mantissa = m.mantissa / 2 ^ k := by
  induction k with
  | zero => exact (Nat.div_one _).symm
  | succ k ih =>
      rw [Nat.pow_succ, ← Nat.div_div_eq_div_mul, ← ih]
      rfl

theorem mantissa_ofMantissaAndAccuracy (m : Nat) (a : Accuracy) :
    (ExtendedMantissa.ofMantissaAndAccuracy m a).mantissa = m := by
  unfold ExtendedMantissa.ofMantissaAndAccuracy
  split <;> rfl

theorem mantissa_le_roundedMantissa (m : ExtendedMantissa) : m.mantissa ≤ m.roundedMantissa := by
  unfold ExtendedMantissa.roundedMantissa Accuracy.roundToNearestEven
  split <;> omega

/-- At its target exponent a significand has no more than 53 bits, and it is not shifted out. -/
theorem shiftToTargetExponent_bounds {m : Nat} {e : Int} (hm : 0 < m) (he : -1074 ≤ e)
    (a : Accuracy) :
    let shifted := shiftToTargetExponent .binary64 m e a
    0 < shifted.1.mantissa ∧ shifted.1.mantissa < 2 ^ 53 ∧ -1074 ≤ shifted.2 := by
  have hk : (Format.binary64.targetExponent (totalExponent m e) - e).toNat = m.log2 - 52 := by
    simp only [targetExponent_eq, totalExponent]
    omega
  obtain ⟨hle, hlt⟩ := (Nat.log2_eq_iff (Nat.ne_of_gt hm)).1 rfl
  simp only [shiftToTargetExponent, shiftToExponent, mantissa_shiftRight,
    mantissa_ofMantissaAndAccuracy, hk]
  refine ⟨Nat.div_pos (Nat.le_trans ?_ hle) (Nat.two_pow_pos _),
    Nat.div_lt_of_lt_mul (Nat.lt_of_lt_of_le hlt ?_), by omega⟩
  · exact Nat.pow_le_pow_right (by decide) (by omega)
  · rw [← Nat.pow_add]
    exact Nat.pow_le_pow_right (by decide) (by omega)

theorem inRange_roundWithAccuracy (s : Sign) {m : Nat} {e : Int} (hm : 0 < m) (he : -1074 ≤ e)
    (a : Accuracy) : InRange (roundWithAccuracy .binary64 s m e a) := by
  obtain ⟨hpos, -, he'⟩ := shiftToTargetExponent_bounds hm he a
  have hrounded := Nat.lt_of_lt_of_le hpos (mantissa_le_roundedMantissa _)
  obtain ⟨hne, hlt, hle⟩ := shiftToTargetExponent_bounds hrounded he' .exact
  unfold roundWithAccuracy
  dsimp only
  rw [dif_neg (Nat.ne_of_gt hne)]
  exact ⟨hlt, hle⟩

theorem inRange_round (s : Sign) {m : Nat} {e : Int} (hm : 0 < m) (he : -1074 ≤ e) :
    InRange (round .binary64 s m e) := by
  refine inRange_roundWithAccuracy s ?_ ?_ _
  · rw [Nat.shiftLeft_eq]
    exact Nat.mul_pos hm (Nat.two_pow_pos _)
  · rw [targetExponent_eq]
    omega

/-- A sum of two finite numbers is rounded to no zero: only what cancels is zero. -/
theorem normalize_cases (m : Int) {e : Int} (he : -1074 ≤ e) :
    UnpackedFloat.normalize .binary64 m e .positive = .zero .positive ∨
      InRange (UnpackedFloat.normalize .binary64 m e .positive) := by
  unfold UnpackedFloat.normalize
  split
  next h => exact .inr (inRange_round _ (by have := Int.compare_eq_lt.1 h; omega) he)
  next => exact .inl rfl
  next h => exact .inr (inRange_round _ (by have := Int.compare_eq_gt.1 h; omega) he)

theorem not_isZero_ofUnpacked {u : UnpackedFloat} (h : InRange u) : ¬(ofUnpacked u).isZero := by
  obtain _ | _ | _ | ⟨s, m, e, hm⟩ := u
  · exact h.elim
  · exact h.elim
  · exact h.elim
  obtain ⟨hlt, he⟩ := h
  have hstored : (ofUnpacked (.finite s m e hm)).bits.toBitVec =
      pack .binary64 (.finite s m e hm) := rfl
  rw [isZero, beq_iff_eq, magnitude_eq, hstored, pack]
  split
  · simp [packedInfinity]
  next hexp =>
    have hexp' : (e + Format.binary64.exponentBias + (52 : Nat)).toNat + 1 < 2 ^ 11 :=
      Nat.lt_of_not_le hexp
    have hbias : (Format.binary64.exponentBias : Int) = 1023 := by decide
    split
    · rw [unpackExponent_packComponents, unpackMantissa_packComponents, BitVec.toNat_ofNat]
      rw [Nat.mod_eq_of_lt (Nat.lt_of_succ_lt hexp')]
      omega
    next hbits =>
      have hlog : m.log2 < 53 := (Nat.log2_lt (Nat.ne_of_gt hm)).2 hlt
      have hlog' : m.log2 + 1 ≠ 53 := hbits
      have hm' : m < 2 ^ 52 := (Nat.log2_lt (Nat.ne_of_gt hm)).1 (by omega)
      rw [unpackMantissa_packComponents, BitVec.toNat_ofNat, Nat.mod_eq_of_lt hm']
      omega

end Rounding

variable {x y : Binary64}

theorem unpacked_of_isZero (h : x.isZero) : ∃ s, x.unpacked = .zero s := by
  have h' : x.magnitude = 0 := beq_iff_eq.1 h
  have hinf : infinity ≠ 0 := by decide
  obtain ⟨hm, -⟩ | ⟨hm, -⟩ | ⟨-, hu⟩ | ⟨hm, -⟩ := x.unpacked_cases
  · omega
  · omega
  · exact hu
  · omega

theorem not_isNaN_of_isZero (h : x.isZero) : ¬x.isNaN := by
  obtain ⟨s, hu⟩ := unpacked_of_isZero h
  rw [← unpacked_eq_notANumber, hu]
  exact nofun

theorem add_of_isNaN (h : x.isNaN) : x + y = x := if_pos h

theorem add_eq_right_of_isNaN (hx : ¬x.isNaN) (hy : y.isNaN) : x + y = y :=
  (if_neg hx).trans (if_pos hy)

theorem mul_eq_right_of_isNaN (hx : ¬x.isNaN) (hy : y.isNaN) : x * y = y :=
  (if_neg hx).trans (if_pos hy)

theorem isNaN_add (h : x.isNaN ∨ y.isNaN) : (x + y).isNaN := by
  by_cases hx : x.isNaN
  · rwa [add_of_isNaN hx]
  · have hy := h.resolve_left hx
    rwa [add_eq_right_of_isNaN hx hy]

theorem isZero_mul_of_isFinite (hx : x.isZero) (hy : y.isFinite) : (x * y).isZero := by
  have hy' : y.magnitude < infinity := of_decide_eq_true hy
  have hnan : ¬y.isNaN := fun h => Nat.lt_asymm hy' (of_decide_eq_true h)
  have hzero (s : Sign) : (ofUnpacked (.zero s)).isZero := by cases s <;> decide
  obtain ⟨s, hu⟩ := unpacked_of_isZero hx
  rw [mul_eq (not_isNaN_of_isZero hx) hnan, hu]
  obtain ⟨hm, -⟩ | ⟨hm, -⟩ | ⟨-, t, hv⟩ | ⟨-, -, hv⟩ := y.unpacked_cases
  · omega
  · omega
  · rw [hv]
    exact hzero _
  · cases hv' : y.unpacked with
    | finite t m e hm => exact hzero _
    | _ => simp [hv', InRange] at hv

theorem isNaN_mul_of_not_isFinite (hx : x.isZero) (hy : ¬y.isFinite) : (x * y).isNaN := by
  have hy' : ¬y.magnitude < infinity := by simpa [isFinite] using hy
  obtain ⟨s, hu⟩ := unpacked_of_isZero hx
  obtain ⟨hm, -⟩ | ⟨hm, t, hv⟩ | ⟨hm, -⟩ | ⟨-, hm, -⟩ := y.unpacked_cases
  · rw [mul_eq_right_of_isNaN (not_isNaN_of_isZero hx) (decide_eq_true hm)]
    exact decide_eq_true hm
  · have hnan : ¬y.isNaN := by
      rw [← unpacked_eq_notANumber, hv]
      exact nofun
    rw [mul_eq (not_isNaN_of_isZero hx) hnan, hu, hv]
    change (ofUnpacked .notANumber).isNaN
    decide
  · exact absurd (hm ▸ by decide) hy'
  · exact absurd hm hy'

theorem ofUnpacked_add_zero {u : UnpackedFloat} (h : u ≠ .zero .negative) (s : Sign) :
    UnpackedFloat.add .binary64 u (.zero s) = u := by
  cases u with
  | zero t => cases t <;> cases s <;> first | rfl | exact absurd rfl h
  | _ => rfl

theorem unpacked_ne_negZero (h : x ≠ -0) : x.unpacked ≠ .zero .negative := by
  intro hu
  have hnan : ¬x.isNaN := by
    rw [← unpacked_eq_notANumber, hu]
    exact nofun
  refine h ?_
  rw [← ofUnpacked_unpacked hnan, hu]
  rfl

/-- A zero added changes nothing but negative zero. -/
theorem add_of_isZero (hx : x ≠ -0) (hy : y.isZero) : x + y = x := by
  by_cases hnan : x.isNaN
  · exact add_of_isNaN hnan
  · obtain ⟨s, hv⟩ := unpacked_of_isZero hy
    rw [add_eq hnan (not_isNaN_of_isZero hy), hv, ofUnpacked_add_zero (unpacked_ne_negZero hx),
      ofUnpacked_unpacked hnan]

/-- What a sum can come to if its first term is not negative zero. -/
theorem add_cases {u v : UnpackedFloat} (hneg : u ≠ .zero .negative)
    (hu : ∀ s m e hm, u = .finite s m e hm → InRange u)
    (hv : ∀ s m e hm, v = .finite s m e hm → InRange v) :
    UnpackedFloat.add .binary64 u v = .notANumber ∨
      (∃ s, UnpackedFloat.add .binary64 u v = .infinity s) ∨
      UnpackedFloat.add .binary64 u v = .zero .positive ∨
      InRange (UnpackedFloat.add .binary64 u v) := by
  cases u with
  | notANumber => exact .inl rfl
  | infinity s =>
      cases v with
      | notANumber => exact .inl rfl
      | infinity t => cases s <;> cases t <;> first | exact .inl rfl | exact .inr (.inl ⟨_, rfl⟩)
      | zero _ | finite _ _ _ _ => exact .inr (.inl ⟨s, rfl⟩)
  | zero s =>
      cases v with
      | notANumber => exact .inl rfl
      | infinity t => exact .inr (.inl ⟨t, rfl⟩)
      | zero t =>
          cases s with
          | negative => exact absurd rfl hneg
          | positive => cases t <;> exact .inr (.inr (.inl rfl))
      | finite t m e hm => exact .inr (.inr (.inr (hv t m e hm rfl)))
  | finite s m e hm =>
      cases v with
      | notANumber => exact .inl rfl
      | infinity t => exact .inr (.inl ⟨t, rfl⟩)
      | zero t => exact .inr (.inr (.inr (hu s m e hm rfl)))
      | finite t m' e' hm' =>
          obtain ⟨-, he⟩ := hu s m e hm rfl
          obtain ⟨-, he'⟩ := hv t m' e' hm' rfl
          exact .inr (.inr (normalize_cases _ (Int.le_min.2 ⟨he, he'⟩)))

theorem inRange_of_unpacked {s : Sign} {m : Nat} {e : Int} {hm : 0 < m}
    (h : x.unpacked = .finite s m e hm) : InRange x.unpacked := by
  obtain ⟨-, hu⟩ | ⟨-, s, hu⟩ | ⟨-, s, hu⟩ | ⟨-, -, hu⟩ := x.unpacked_cases
  · cases h.symm.trans hu
  · cases h.symm.trans hu
  · cases h.symm.trans hu
  · exact hu

/-- A sum that does not start from negative zero never comes to it. -/
theorem add_ne_negZero (hx : x ≠ -0) (y : Binary64) : x + y ≠ -0 := by
  by_cases hnan : x.isNaN
  · rwa [add_of_isNaN hnan]
  by_cases hnan' : y.isNaN
  · intro h
    have hsum : (x + y).isNaN := isNaN_add (.inr hnan')
    rw [h] at hsum
    exact absurd hsum (by decide)
  rw [add_eq hnan hnan']
  obtain h | ⟨s, h⟩ | h | h := add_cases (unpacked_ne_negZero hx)
    (fun _ _ _ _ => inRange_of_unpacked) (fun _ _ _ _ => inRange_of_unpacked (x := y))
  · rw [h]
    decide
  · rw [h]
    cases s <;> decide
  · rw [h]
    decide
  · intro h'
    have hzero := not_isZero_ofUnpacked h
    rw [h'] at hzero
    exact hzero (by decide)

end Reckon.Binary64
