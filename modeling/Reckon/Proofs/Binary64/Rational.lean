import Mathlib.Tactic.FieldSimp
import Mathlib.Tactic.Positivity
import Reckon.Proofs.Binary64.Values

/-!
Finite numbers by their exact values as rational numbers.
-/

namespace Reckon.Binary64

/-- The exact value of a finite magnitude. -/
def magnitudeRat (bits : Nat) : ℚ := units bits / one

/-- The exact value of a finite number. -/
def toRat (x : Binary64) : ℚ := x.exact / one

variable {x y : Binary64} {bits : Nat}

theorem oneUnits_pos : 0 < one := by
  rw [one, Nat.one_shiftLeft]
  exact Nat.two_pow_pos _

theorem oneUnits_pos_rat : (0 : ℚ) < one := by exact_mod_cast oneUnits_pos

theorem magnitudeRat_zero : magnitudeRat 0 = 0 := by
  rw [magnitudeRat, units_zero, Nat.cast_zero, zero_div]

theorem magnitudeRat_pos (h : 0 < bits) : 0 < magnitudeRat bits :=
  div_pos (by exact_mod_cast units_pos h) oneUnits_pos_rat

theorem toRat_eq (x : Binary64) :
    x.toRat = if x.isNegative then -magnitudeRat x.magnitude else magnitudeRat x.magnitude := by
  rw [toRat, exact, magnitudeRat]
  split
  · rw [Int.cast_neg, Int.cast_natCast, neg_div]
  · rw [Int.cast_natCast]

theorem abs_toRat (x : Binary64) : |x.toRat| = magnitudeRat x.magnitude := by
  have hnonneg : 0 ≤ magnitudeRat x.magnitude := by
    rw [magnitudeRat]
    positivity
  rw [toRat_eq]
  split
  · rw [abs_neg, abs_of_nonneg hnonneg]
  · rw [abs_of_nonneg hnonneg]

theorem toRat_eq_zero : x.toRat = 0 ↔ x.magnitude = 0 := by
  rw [← abs_eq_zero, abs_toRat]
  refine ⟨fun h => ?_, fun h => by rw [h, magnitudeRat_zero]⟩
  by_contra hne
  exact (magnitudeRat_pos (Nat.pos_of_ne_zero hne)).ne' h

theorem isNegative_iff_toRat_neg (h : 0 < x.magnitude) : x.isNegative ↔ x.toRat < 0 := by
  have hpos := magnitudeRat_pos h
  rw [toRat_eq]
  split
  · rename_i hneg
    exact iff_of_true hneg (neg_lt_zero.2 hpos)
  · rename_i hneg
    exact iff_of_false hneg (not_lt.2 hpos.le)

theorem magnitudeRat_of_isWhole (h : x.isWhole) : magnitudeRat x.magnitude = x.floorMagnitude := by
  rw [isWhole, Bool.and_eq_true, beq_iff_eq] at h
  rw [magnitudeRat, floorMagnitude, div_eq_iff oneUnits_pos_rat.ne']
  exact_mod_cast (Nat.div_mul_cancel (Nat.dvd_of_mod_eq_zero h.2)).symm

/-- A finite number whose value is a whole number is known for one. -/
theorem isWhole_of_toRat_eq {k : Int} (h : x.isFinite) (hk : x.toRat = k) : x.isWhole := by
  have habs : (units x.magnitude : ℚ) = (k.natAbs * one : Nat) := by
    rw [Nat.cast_mul, ← div_eq_iff oneUnits_pos_rat.ne', Nat.cast_natAbs, Int.cast_abs, ← hk]
    exact (abs_toRat x).symm
  have hunits : units x.magnitude = k.natAbs * one := by exact_mod_cast habs
  rw [isWhole, Bool.and_eq_true, beq_iff_eq, hunits]
  exact ⟨h, Nat.mul_mod_left _ _⟩

section Order

theorem place_abs (x : Binary64) : x.abs.place = x.magnitude := by
  rw [place, abs, isNegative_ofMagnitude _ x.magnitude_lt, magnitude_ofMagnitude _ x.magnitude_lt]
  rfl

theorem not_isNaN_abs (h : x.isFinite) : ¬x.abs.isNaN := by
  rw [isNaN_iff, place_abs, Int.natAbs_natCast]
  exact Nat.not_lt.2 (Nat.le_of_lt (of_decide_eq_true h))

theorem not_le (hx : ¬x.isNaN) (hy : ¬y.isNaN) : ¬x ≤ y ↔ y < x := by
  rw [le_iff hx hy, lt_iff hy hx, Int.not_le]

end Order

end Reckon.Binary64
