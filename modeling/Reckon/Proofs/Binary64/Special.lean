import Reckon.Proofs.Binary64.Operations

/-!
Sums with infinities, NaNs and zeros. An infinity stays in a sum until it is taken out of it,
and then it leaves a NaN; and a sum is negative zero only if all of its terms are.
-/

namespace Reckon.Binary64

open Float.Model (Format UnpackedFloat)
open Float.Model.UnpackedFloat

variable {x y : Binary64}

section Infinities

theorem isNaN_or_infinity (h : ¬x.isFinite) :
    x.isNaN ∨ ¬x.isNaN ∧ x.unpacked = .infinity x.sign := by
  obtain ⟨hm, -⟩ | ⟨hm, hu⟩ | ⟨hm, -⟩ | ⟨-, -, -, -, -, -, hm⟩ := x.unpacked_spec
  · exact .inl (decide_eq_true hm)
  · refine .inr ⟨?_, hu⟩
    rw [isNaN, decide_eq_true_iff, hm]
    exact Nat.lt_irrefl _
  · exact absurd (decide_eq_true (hm ▸ by decide)) h
  · exact absurd (decide_eq_true hm) h

theorem unpacked_ofUnpacked_infinity (s : Sign) :
    (ofUnpacked (.infinity s)).unpacked = .infinity s := by
  cases s <;> rfl

theorem add_infinity (s : Sign) (u : UnpackedFloat) :
    UnpackedFloat.add .binary64 (.infinity s) u = .infinity s ∨
      UnpackedFloat.add .binary64 (.infinity s) u = .notANumber := by
  cases u with
  | notANumber => exact .inr rfl
  | infinity t => cases s <;> cases t <;> first | exact .inl rfl | exact .inr rfl
  | zero t => exact .inl rfl
  | finite t m e hm => exact .inl rfl

theorem infinity_add (u : UnpackedFloat) (s : Sign) :
    UnpackedFloat.add .binary64 u (.infinity s) = .infinity s ∨
      UnpackedFloat.add .binary64 u (.infinity s) = .notANumber := by
  cases u with
  | notANumber => exact .inr rfl
  | infinity t => cases s <;> cases t <;> first | exact .inl rfl | exact .inr rfl
  | zero t => exact .inl rfl
  | finite t m e hm => exact .inl rfl

/-- What is not finite stays in a sum, or none of it is left. -/
theorem add_of_not_isFinite (h : ¬x.isFinite) (y : Binary64) : x + y = x ∨ (x + y).isNaN := by
  obtain hnan | ⟨hnan, hu⟩ := isNaN_or_infinity h
  · exact .inl (add_of_isNaN hnan)
  · by_cases hy : y.isNaN
    · exact .inr (isNaN_add (.inr hy))
    · rw [add_eq hnan hy, hu]
      obtain hadd | hadd := add_infinity x.sign y.unpacked
      · left
        rw [hadd, ← hu, ofUnpacked_unpacked hnan]
      · right
        rw [hadd]
        decide

theorem add_right_of_not_isFinite (x : Binary64) (h : ¬y.isFinite) :
    x + y = y ∨ (x + y).isNaN := by
  by_cases hx : x.isNaN
  · exact .inr (isNaN_add (.inl hx))
  · obtain hnan | ⟨hnan, hu⟩ := isNaN_or_infinity h
    · exact .inl (add_eq_right_of_isNaN hx hnan)
    · rw [add_eq hx hnan, hu]
      obtain hadd | hadd := infinity_add x.unpacked y.sign
      · left
        rw [hadd, ← hu, ofUnpacked_unpacked hnan]
      · right
        rw [hadd]
        decide

theorem sub_of_isFinite (hx : ¬x.isFinite) (hy : y.isFinite) : x - y = x := by
  obtain hnan | ⟨hnan, hu⟩ := isNaN_or_infinity hx
  · exact if_pos hnan
  · have hsub : UnpackedFloat.sub .binary64 (.infinity x.sign) y.unpacked = .infinity x.sign := by
      obtain ⟨-, hv⟩ | ⟨m, e, hm, hv, -⟩ := unpacked_of_isFinite hy
      · rw [hv]
        rfl
      · rw [hv]
        rfl
    rw [sub_eq hnan (not_isNaN_of_isFinite hy), hu, hsub, ← hu, ofUnpacked_unpacked hnan]

/-- What is not finite cannot be taken out of a sum again. -/
theorem isNaN_add_sub (h : ¬x.isFinite) (y : Binary64) : (x + (y - x)).isNaN := by
  obtain hnan | ⟨hnan, hu⟩ := isNaN_or_infinity h
  · exact isNaN_add (.inl hnan)
  by_cases hy : y.isNaN
  · have hleft : y - x = y := if_pos hy
    exact isNaN_add (.inr (by rwa [hleft]))
  have hsub : UnpackedFloat.sub .binary64 y.unpacked (.infinity x.sign) = .infinity (-x.sign) ∨
      UnpackedFloat.sub .binary64 y.unpacked (.infinity x.sign) = .notANumber := by
    cases y.unpacked with
    | notANumber => exact .inr rfl
    | infinity t => cases x.sign <;> cases t <;> first | exact .inl rfl | exact .inr rfl
    | zero t => exact .inl rfl
    | finite t m e hm => exact .inl rfl
  have hdifference := sub_eq hy hnan
  rw [hu] at hdifference
  obtain hsub | hsub := hsub
  · rw [hsub] at hdifference
    have hv : (y - x).unpacked = .infinity (-x.sign) := by
      rw [hdifference, unpacked_ofUnpacked_infinity]
    have hnumber : ¬(y - x).isNaN := by
      rw [← unpacked_eq_notANumber, hv]
      exact nofun
    rw [add_eq hnan hnumber, hu, hv]
    cases x.sign <;> decide
  · rw [hsub] at hdifference
    refine isNaN_add (.inr ?_)
    rw [hdifference]
    decide

end Infinities

section NegativeZero

theorem unpacked_negZero : (-0 : Binary64).unpacked = .zero .negative := rfl

theorem negZero_add (y : Binary64) : -0 + y = y := by
  have hzero : ¬(-0 : Binary64).isNaN := by decide
  by_cases hy : y.isNaN
  · exact add_eq_right_of_isNaN hzero hy
  · have hadd : UnpackedFloat.add .binary64 (.zero .negative) y.unpacked = y.unpacked := by
      cases y.unpacked with
      | zero s => cases s <;> rfl
      | _ => rfl
    rw [add_eq hzero hy, unpacked_negZero, hadd, ofUnpacked_unpacked hy]

theorem add_right_ne_negZero (x : Binary64) (hy : y ≠ -0) : x + y ≠ -0 := by
  by_cases hx : x = -0
  · rwa [hx, negZero_add]
  · exact add_ne_negZero hx y

theorem sub_negZero_ne (x : Binary64) : x - -0 ≠ -0 := by
  by_cases hx : x.isNaN
  · have hsub : x - -0 = x := if_pos hx
    rw [hsub]
    rintro rfl
    exact absurd hx (by decide)
  · have hsub : UnpackedFloat.sub .binary64 x.unpacked (.zero .negative) = x.unpacked ∧
        x.unpacked ≠ .zero .negative ∨
        UnpackedFloat.sub .binary64 x.unpacked (.zero .negative) = .zero .positive := by
      cases x.unpacked with
      | zero s => cases s <;> exact .inr rfl
      | _ => exact .inl ⟨rfl, nofun⟩
    rw [sub_eq hx (by decide), unpacked_negZero]
    obtain ⟨hsub, hne⟩ | hsub := hsub
    · rw [hsub, ofUnpacked_unpacked hx]
      rintro rfl
      exact hne unpacked_negZero
    · rw [hsub]
      decide

/-- Numbers of one value are the same if none of them is negative zero. -/
theorem eq_of_exact (hx : x ≠ -0) (hy : y ≠ -0) (h : x.exact = y.exact) : x = y := by
  have hplace : x.place = y.place :=
    Int.le_antisymm (exact_le_exact.1 h.le) (exact_le_exact.1 h.ge)
  have hmagnitude : x.magnitude = y.magnitude := by
    rw [← natAbs_place, hplace, natAbs_place]
  have hzero {v : Binary64} (hv : v ≠ -0) (hm : v.magnitude = 0) : v.isNegative = false := by
    by_contra hneg
    rw [Bool.not_eq_false] at hneg
    apply hv
    rw [← ofMagnitude_magnitude v, hneg, hm]
    decide
  have hnegative : x.isNegative = y.isNegative := by
    obtain hm | hpos := Nat.eq_zero_or_pos x.magnitude
    · rw [hzero hx hm, hzero hy (hmagnitude ▸ hm)]
    · rw [place, place, ← hmagnitude] at hplace
      cases hxn : x.isNegative <;> cases hyn : y.isNegative <;> rw [hxn, hyn] at hplace <;>
        first | rfl | (simp only [if_true, Bool.false_eq_true, if_false] at hplace; omega)
  rw [← ofMagnitude_magnitude x, ← ofMagnitude_magnitude y, hmagnitude, hnegative]

end NegativeZero

end Reckon.Binary64
