import Reckon.Json.Basic
import Reckon.Proofs.Decimal.Readings
import Reckon.Proofs.Display.Rounding

/-!
The numbers of JSON documents by the values they denote. Integers are written out, so they denote
themselves; a finite binary64 number is written in digits that are read as the number itself, with
its sign. Numbers that denote one value are read as equal ones. How a document is split into its
parts is left out.
-/

namespace Reckon.Json.Number

open Binary64 (magnitudeRat)

variable {n n' : Number} {x : Binary64}

/-- The value that the number denotes, exactly. -/
def toRat (n : Number) : ℚ :=
  if n.negative then -n.numeral.value.toRat else n.numeral.value.toRat

theorem value_nonneg (d : Decimal) : 0 ≤ d.toRat := by
  rw [Decimal.toRat]
  positivity

theorem abs_toRat (n : Number) : |n.toRat| = n.numeral.value.toRat := by
  rw [toRat]
  split
  · rw [abs_neg, abs_of_nonneg (value_nonneg _)]
  · rw [abs_of_nonneg (value_nonneg _)]

section Integers

theorem isInteger_ofInt (k : Int) : (ofInt k).isInteger = true := rfl

theorem toRat_ofInt (k : Int) : (ofInt k).toRat = k := by
  have hvalue : (ofInt k).numeral.value.toRat = k.natAbs := by
    simp [ofInt, Numeral.value, Decimal.ofDigits, Decimal.toRat]
  have hnegative : (ofInt k).negative = decide (k < 0) := rfl
  rw [toRat, hvalue, hnegative, Nat.cast_natAbs, Int.cast_abs]
  by_cases h : k < 0
  · have hneg : (k : ℚ) < 0 := by exact_mod_cast h
    rw [decide_eq_true h, if_pos rfl, abs_of_neg hneg, neg_neg]
  · have hnonneg : (0 : ℚ) ≤ k := by exact_mod_cast Int.not_lt.1 h
    rw [decide_eq_false h, if_neg Bool.false_ne_true, abs_of_nonneg hnonneg]

end Integers

section Decimals

theorem isInteger_ofDecimal (negative : Bool) (d : Decimal) :
    (ofDecimal negative d).isInteger = false := by
  rw [ofDecimal]
  dsimp only
  split <;> rfl

/-- A point or an exponent that is written behind the digits does not change the value. -/
theorem toRat_numeral_ofDecimal (negative : Bool) (d : Decimal) :
    (ofDecimal negative d).numeral.value.toRat = d.toRat := by
  rw [ofDecimal]
  dsimp only
  split
  · rename_i h
    have hzero : (Decimal.ofDigits (Nat.toDigits 10 d.coefficient)
        ([] ++ List.replicate 1 '0') 0).toRat =
          (Decimal.ofDigits (Nat.toDigits 10 d.coefficient) [] 0).toRat :=
      Decimal.toRat_ofDigits_append_zeros 1 0
    refine Eq.trans hzero ?_
    simp [Decimal.ofDigits, Decimal.toRat, h]
  · have hscale := Display.value_exponentScale d.exponent
    simp only [Display.exponentScale] at hscale
    simp [Numeral.value, Decimal.ofDigits, Decimal.toRat, hscale]

theorem isInteger_ofBinary64 (x : Binary64) : (ofBinary64 x).isInteger = false :=
  isInteger_ofDecimal _ _

/-- What is written for a finite number is read as that number. -/
theorem toBinary64_ofBinary64 (h : x.isFinite) : (ofBinary64 x).toBinary64 = x := by
  have hnegative : (ofBinary64 x).negative = x.isNegative := by
    rw [ofBinary64, ofDecimal]
    dsimp only
    split <;> rfl
  have hbits : (ofBinary64 x).numeral.value.bits = x.magnitude := by
    rw [ofBinary64, Decimal.bits_congr (toRat_numeral_ofDecimal _ _),
      Decimal.shortest_bits (of_decide_eq_true h)]
  rw [toBinary64, hnegative, hbits, Binary64.ofMagnitude_magnitude]

end Decimals

section Readings

theorem toRat_toBinary64 (n : Number) :
    n.toBinary64.toRat = if n.negative then -magnitudeRat n.numeral.value.bits
      else magnitudeRat n.numeral.value.bits := by
  have hlt := n.numeral.value.bits_lt_signBit
  rw [toBinary64, Binary64.toRat_eq, Binary64.isNegative_ofMagnitude _ hlt,
    Binary64.magnitude_ofMagnitude _ hlt]

/-- A number that denotes the value of a finite one is read as that one; zero loses its sign. -/
theorem toBinary64_of_toRat_eq (h : x.isFinite) (hvalue : n.toRat = x.toRat) :
    n.toBinary64 = x ∨ x.isZero ∧ n.toBinary64.isZero := by
  have habs : n.numeral.value.toRat = magnitudeRat x.magnitude := by
    rw [← abs_toRat, hvalue, Binary64.abs_toRat]
  have hbits : n.numeral.value.bits = x.magnitude :=
    Decimal.bits_of_toRat_eq (of_decide_eq_true h) habs
  obtain hzero | hpos := Nat.eq_zero_or_pos x.magnitude
  · have hlt := n.numeral.value.bits_lt_signBit
    rw [hbits] at hlt
    refine .inr ⟨beq_iff_eq.2 hzero, beq_iff_eq.2 ?_⟩
    rw [toBinary64, hbits, Binary64.magnitude_ofMagnitude _ hlt, hzero]
  · have hmagnitude := Binary64.magnitudeRat_pos hpos
    have hsign : n.negative = x.isNegative := by
      rw [toRat, Binary64.toRat_eq, habs] at hvalue
      cases hn : n.negative <;> cases hx : x.isNegative <;> simp [hn, hx] at hvalue ⊢ <;> linarith
    left
    rw [toBinary64, hbits, hsign, Binary64.ofMagnitude_magnitude]

/-- Numbers that denote one value are read as equal ones. -/
theorem toRat_toBinary64_congr (h : n.toRat = n'.toRat) :
    n.toBinary64.toRat = n'.toBinary64.toRat := by
  have habs : n.numeral.value.toRat = n'.numeral.value.toRat := by
    rw [← abs_toRat, h, abs_toRat]
  have hbits := Decimal.bits_congr habs
  rw [toRat_toBinary64, toRat_toBinary64, hbits]
  by_cases hsign : n.negative = n'.negative
  · rw [hsign]
  · -- only zero has one value with both signs
    have hzero : n'.numeral.value.toRat = 0 := by
      rw [toRat, toRat, habs] at h
      cases hn : n.negative <;> cases hn' : n'.negative <;> simp [hn, hn'] at h hsign <;> linarith
    have hbits' : n'.numeral.value.bits = 0 := if_pos (Decimal.toRat_eq_zero.1 hzero)
    rw [hbits', Binary64.magnitudeRat_zero, neg_zero, ite_self, ite_self]

end Readings

end Reckon.Json.Number
