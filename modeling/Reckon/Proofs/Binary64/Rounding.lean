import Reckon.Proofs.Binary64.Closest
import Reckon.Proofs.Binary64.Zeros

/-!
How a result is rounded. A significand is carried with two more bits until it is shifted into
its binade: half of its last place, and whether there is anything below that. They tell as
much of the exact result as rounding it takes, so what is packed is the magnitude nearest to
the exact result.
-/

namespace Reckon.Binary64

open Float.Model (Format UnpackedFloat totalExponent)
open Float.Model.UnpackedFloat

section Residues

variable {em : ExtendedMantissa} {num den : Nat}

/-- The significand and its two further bits are those of a fraction. -/
structure Represents (em : ExtendedMantissa) (num den : Nat) : Prop where
  mantissa : em.mantissa = num / den
  half : em.roundBit = true ↔ den ≤ 2 * (num % den)
  rest : em.stickyBit = true ↔ 2 * (num % den) ≠ 0 ∧ 2 * (num % den) ≠ den

theorem Represents.roundedMantissa (h : Represents em num den) :
    em.roundedMantissa = roundHalfEven num den := by
  obtain ⟨mantissa, half, rest⟩ := em
  obtain ⟨hm, hh, hr⟩ := h
  dsimp only at hm hh hr
  unfold ExtendedMantissa.roundedMantissa roundHalfEven
  dsimp only
  rw [← hm]
  cases half <;> cases rest <;>
    simp only [ExtendedMantissa.accuracy, Accuracy.roundToNearestEven, true_iff, false_iff,
      Bool.false_eq_true] at hh hr ⊢ <;> split_ifs <;> omega

theorem Represents.shiftRightOne (hd : 0 < den) (h : Represents em num den) :
    Represents em.shiftRightOne num (den * 2) := by
  have hmod : num % (den * 2) = num % den + den * (num / den % 2) := Nat.mod_mul
  have hlt := Nat.mod_lt num hd
  obtain ⟨hm, hh, hr⟩ := h
  refine ⟨?_, ?_, ?_⟩
  · rw [ExtendedMantissa.shiftRightOne, hm, Nat.div_div_eq_div_mul]
  · simp only [ExtendedMantissa.shiftRightOne, hm, bne_iff_ne, hmod]
    obtain hz | ho := Nat.mod_two_eq_zero_or_one (num / den)
    · rw [hz]
      omega
    · rw [ho]
      omega
  · simp only [ExtendedMantissa.shiftRightOne, Bool.or_eq_true, hh, hr, hmod]
    obtain hz | ho := Nat.mod_two_eq_zero_or_one (num / den)
    · rw [hz]
      omega
    · rw [ho]
      omega

theorem Represents.shiftRight (hd : 0 < den) (h : Represents em num den) (k : Nat) :
    Represents (em >>> k) num (den * 2 ^ k) := by
  induction k with
  | zero =>
      rw [Nat.pow_zero, Nat.mul_one]
      exact h
  | succ k ih =>
      rw [Nat.pow_succ, ← Nat.mul_assoc]
      exact ih.shiftRightOne (Nat.mul_pos hd (Nat.two_pow_pos k))

theorem represents_exact (m : Nat) :
    Represents (.ofMantissaAndAccuracy m .exact) m 1 := by
  refine ⟨(Nat.div_one m).symm, ?_, ?_⟩ <;>
    simp [ExtendedMantissa.ofMantissaAndAccuracy, Nat.mod_one]

theorem represents_fraction (hd : 0 < den) (num : Nat) :
    Represents (.ofMantissaAndAccuracy (num / den) (accuracyOfFraction (num % den) den))
      num den := by
  unfold accuracyOfFraction
  split
  · rename_i hz
    refine ⟨rfl, ?_, ?_⟩ <;> simp [ExtendedMantissa.ofMantissaAndAccuracy, hz]
    omega
  · rename_i hz
    cases hc : compare (2 * (num % den)) den with
    | lt =>
        have hlt := Nat.compare_eq_lt.1 hc
        refine ⟨rfl, ?_, ?_⟩ <;> simp [ExtendedMantissa.ofMantissaAndAccuracy] <;> omega
    | eq =>
        have heq := Nat.compare_eq_eq.1 hc
        refine ⟨rfl, ?_, ?_⟩ <;> simp [ExtendedMantissa.ofMantissaAndAccuracy] <;> omega
    | gt =>
        have hgt := Nat.compare_eq_gt.1 hc
        refine ⟨rfl, ?_, ?_⟩ <;> simp [ExtendedMantissa.ofMantissaAndAccuracy] <;> omega

end Residues

section Packing

variable {s : Sign} {m : Nat} {e : Int}

theorem magnitude_ofBitVec (b : BitVec Format.binary64.numBits) :
    (Binary64.mk (.ofBitVec b)).magnitude =
      (unpackExponent b).toNat * 2 ^ 52 + (unpackMantissa b).toNat := magnitude_eq _

theorem magnitude_packedInfinity (s : Sign) :
    (Binary64.mk (.ofBitVec (packedInfinity .binary64 s))).magnitude = infinity := by
  cases s <;> decide

/-- The exponent is stored one greater for the leading bit, which is not stored. -/
theorem stored_significand {k : Nat} (hk : k ≤ 2045) (hge : 2 ^ 52 ≤ m) (hlt : m < 2 ^ 53) :
    (k + 1) * 2 ^ 52 + (m - 2 ^ 52) = min (k * binadeSize + m) infinity := by
  simp only [binadeSize, infinity]
  omega

/-- A significand in its binade is packed to its magnitude, or to infinity. -/
theorem magnitude_ofUnpacked_finite (hm : 0 < m) (hlt : m < 2 ^ 53) (he : -1074 ≤ e)
    (hge : -1074 < e → 2 ^ 52 ≤ m) :
    (ofUnpacked (.finite s m e hm)).magnitude =
      min ((e + 1074).toNat * binadeSize + m) infinity := by
  have hbias : (Format.binary64.exponentBias : Int) = 1023 := by decide
  have hpacked : (ofUnpacked (.finite s m e hm)).magnitude =
      (Binary64.mk (.ofBitVec (pack .binary64 (.finite s m e hm)))).magnitude := rfl
  rw [hpacked, pack]
  split
  next hexp =>
    have hexp' : 2 ^ 11 ≤ (e + Format.binary64.exponentBias + (52 : Nat)).toNat + 1 := hexp
    have hm' := hge (by omega)
    rw [magnitude_packedInfinity]
    simp only [binadeSize, infinity]
    omega
  next hexp =>
    have hexp' : (e + Format.binary64.exponentBias + (52 : Nat)).toNat + 1 < 2 ^ 11 :=
      Nat.lt_of_not_le hexp
    split
    next hbits =>
      have hlog : m.log2 = 52 := Nat.succ_inj.1 hbits
      have hm' : 2 ^ 52 ≤ m := by
        rw [← hlog]
        exact Nat.log2_self_le (Nat.ne_of_gt hm)
      have hexponent : (e + Format.binary64.exponentBias + (52 : Nat)).toNat % 2 ^ 11 =
          (e + 1074).toNat + 1 := by omega
      have hmantissa : m % 2 ^ 52 = m - 2 ^ 52 := by omega
      rw [magnitude_ofBitVec, unpackExponent_packComponents, unpackMantissa_packComponents,
        BitVec.toNat_ofNat, BitVec.toNat_ofNat, hexponent, hmantissa]
      exact stored_significand (by omega) hm' hlt
    next hbits =>
      have hlog : m.log2 < 53 := (Nat.log2_lt (Nat.ne_of_gt hm)).2 hlt
      have hlog' : m.log2 + 1 ≠ 53 := hbits
      have hm' : m < 2 ^ 52 := (Nat.log2_lt (Nat.ne_of_gt hm)).1 (by omega)
      have he' : e = -1074 := by
        by_contra hne
        exact Nat.lt_irrefl _ (Nat.lt_of_le_of_lt (hge (by omega)) hm')
      rw [magnitude_ofBitVec, unpackExponent_packComponents, unpackMantissa_packComponents,
        BitVec.toNat_ofNat, BitVec.toNat_ofNat]
      simp only [binadeSize, infinity, he']
      omega

theorem magnitude_ofUnpacked_zero (s : Sign) : (ofUnpacked (.zero s)).magnitude = 0 := by
  cases s <;> decide

end Packing

section Shifting

variable {s : Sign} {m num den : Nat} {e : Int} {a : Accuracy}

theorem log2_div_two_pow (n k : Nat) : (n / 2 ^ k).log2 = n.log2 - k := by
  by_cases hlt : n < 2 ^ k
  · rw [Nat.div_eq_of_lt hlt, Nat.log2_zero]
    by_cases hn : n = 0
    · simp [hn]
    · have := (Nat.log2_lt hn).2 hlt
      omega
  · rw [Nat.not_lt] at hlt
    have hn : n ≠ 0 := Nat.ne_of_gt (Nat.lt_of_lt_of_le (Nat.two_pow_pos k) hlt)
    have hk := (Nat.le_log2 hn).2 hlt
    obtain ⟨hle, hlt'⟩ := (Nat.log2_eq_iff hn).1 rfl
    rw [Nat.log2_eq_iff (Nat.ne_of_gt (Nat.div_pos hlt (Nat.two_pow_pos k))),
      Nat.le_div_iff_mul_le (Nat.two_pow_pos k), Nat.div_lt_iff_lt_mul (Nat.two_pow_pos k),
      ← Nat.pow_add, ← Nat.pow_add]
    rw [show n.log2 - k + k = n.log2 by omega, show n.log2 - k + 1 + k = n.log2 + 1 by omega]
    exact ⟨hle, hlt'⟩

/-- The units of a fraction that is scaled by a power of two. -/
def scaledUp (e : Int) : Nat := 2 ^ (e + 1074).toNat

def scaledDown (e : Int) : Nat := 2 ^ (-1074 - e).toNat

theorem scaledUp_pos (e : Int) : 0 < scaledUp e := Nat.two_pow_pos _

theorem scaledDown_pos (e : Int) : 0 < scaledDown e := Nat.two_pow_pos _

/-- How far the significand is shifted to get into its binade. -/
theorem binadeOf_scaled (hd : 0 < den) (he : 52 ≤ (num / den).log2 ∨ e ≤ -1074) :
    (binadeOf (num * scaledUp e) (den * scaledDown e) : Int) =
      max ((num / den).log2 + 1 + e - 53) (-1074) + 1074 := by
  rw [binadeOf, scaledUp, scaledDown]
  by_cases hsmall : e ≤ -1074
  · rw [show (e + 1074).toNat = 0 by omega, Nat.pow_zero, Nat.mul_one,
      ← Nat.div_div_eq_div_mul, log2_div_two_pow]
    omega
  · have hlog := he.resolve_right hsmall
    have hq : num / den ≠ 0 := by
      intro hq
      rw [hq] at hlog
      exact absurd hlog (by decide)
    rw [show (-1074 - e).toNat = 0 by omega, Nat.pow_zero, Nat.mul_one]
    have hup : (num * 2 ^ (e + 1074).toNat / den).log2 = (num / den).log2 + (e + 1074).toNat := by
      obtain ⟨hle, hlt⟩ := (Nat.log2_eq_iff hq).1 rfl
      have hden : den ≤ num := by
        by_contra hlt
        exact hq (Nat.div_eq_of_lt (Nat.lt_of_not_le hlt))
      have hne : num * 2 ^ (e + 1074).toNat / den ≠ 0 :=
        Nat.ne_of_gt (Nat.div_pos (hden.trans (Nat.le_mul_of_pos_right _ (Nat.two_pow_pos _))) hd)
      rw [Nat.log2_eq_iff hne, Nat.le_div_iff_mul_le hd, Nat.div_lt_iff_lt_mul hd]
      rw [Nat.le_div_iff_mul_le hd] at hle
      rw [Nat.div_lt_iff_lt_mul hd] at hlt
      constructor
      · rw [Nat.pow_add, Nat.mul_right_comm]
        exact Nat.mul_le_mul_right _ hle
      · rw [Nat.add_right_comm, Nat.pow_add, Nat.mul_right_comm]
        exact Nat.mul_lt_mul_of_pos_right hlt (Nat.two_pow_pos _)
    rw [hup]
    omega

/-- A significand that is rounded stays in its binade, or is the first of the next one. -/
theorem shiftToTargetExponent_rounded {sig : Nat} (hsig : sig ≤ 2 ^ 53) (he : -1074 ≤ e) :
    let shifted := shiftToTargetExponent .binary64 sig e .exact
    sig < 2 ^ 53 ∧ shifted.1.mantissa = sig ∧ shifted.2 = e ∨
      sig = 2 ^ 53 ∧ shifted.1.mantissa = 2 ^ 52 ∧ shifted.2 = e + 1 := by
  have hk : (Format.binary64.targetExponent (totalExponent sig e) - e).toNat = sig.log2 - 52 := by
    simp only [targetExponent_eq, totalExponent]
    omega
  simp only [shiftToTargetExponent, shiftToExponent, mantissa_shiftRight,
    mantissa_ofMantissaAndAccuracy, hk]
  obtain hlt | heq := Nat.lt_or_eq_of_le hsig
  · have hlog : sig.log2 - 52 = 0 := by
      by_cases hz : sig = 0
      · simp [hz]
      · have := (Nat.log2_lt hz).2 hlt
        omega
    rw [hlog]
    exact .inl ⟨hlt, Nat.div_one sig, by omega⟩
  · have hlog : sig.log2 - 52 = 1 := by rw [heq, Nat.log2_two_pow]
    rw [hlog, heq]
    exact .inr ⟨rfl, by norm_num, rfl⟩

/-- The first shift takes a fraction into its binade. -/
theorem shiftToTargetExponent_represents (hd : 0 < den)
    (h : Represents (.ofMantissaAndAccuracy (num / den) a) num den)
    (he : 52 ≤ (num / den).log2 ∨ e ≤ -1074) :
    let shifted := shiftToTargetExponent .binary64 (num / den) e a
    let k := binadeOf (num * scaledUp e) (den * scaledDown e)
    shifted.1.roundedMantissa =
        roundHalfEven (num * scaledUp e) (den * scaledDown e * 2 ^ k) ∧
      shifted.2 = k - 1074 := by
  intro shifted k
  have hbinade : (k : Int) = _ := binadeOf_scaled hd he
  have hshift : Format.binary64.targetExponent (totalExponent (num / den) e) = k - 1074 := by
    rw [targetExponent_eq, totalExponent, hbinade]
    omega
  have hrounded := (h.shiftRight hd (k - 1074 - e).toNat).roundedMantissa
  have hscale : den * scaledDown e * 2 ^ k = den * 2 ^ (k - 1074 - e).toNat * scaledUp e := by
    rw [scaledDown, scaledUp, Nat.mul_assoc, Nat.mul_assoc, ← Nat.pow_add, ← Nat.pow_add]
    congr 2
    omega
  simp only [shifted, shiftToTargetExponent, shiftToExponent, hshift, hrounded]
  rw [hscale, roundHalfEven_mul_right (scaledUp_pos e)]
  exact ⟨rfl, by omega⟩

/-- What is packed is the magnitude nearest to the fraction that was rounded. -/
theorem magnitude_roundWithAccuracy (hd : 0 < den)
    (h : Represents (.ofMantissaAndAccuracy (num / den) a) num den)
    (he : 52 ≤ (num / den).log2 ∨ e ≤ -1074) :
    (ofUnpacked (roundWithAccuracy .binary64 s (num / den) e a)).magnitude =
      nearestUnits (num * scaledUp e) (den * scaledDown e) := by
  obtain ⟨hsig, hexponent⟩ := shiftToTargetExponent_represents hd h he
  obtain ⟨hle, hge⟩ := significand_bounds (Nat.mul_pos hd (scaledDown_pos e)) (num * scaledUp e)
  unfold nearestUnits
  rw [roundWithAccuracy]
  simp only [hsig, hexponent]
  generalize binadeOf (num * scaledUp e) (den * scaledDown e) = k at *
  generalize roundHalfEven (num * scaledUp e) (den * scaledDown e * 2 ^ k) = sig at *
  obtain ⟨hlt, hmantissa, hfinal⟩ | ⟨heq, hmantissa, hfinal⟩ :=
    shiftToTargetExponent_rounded hle (e := (k : Int) - 1074) (by omega)
  · simp only [hmantissa, hfinal]
    split
    next hz =>
      have hk : k = 0 := by
        by_contra hk
        have := hge (Nat.pos_of_ne_zero hk)
        omega
      rw [magnitude_ofUnpacked_zero, hz, hk]
      rfl
    next hz =>
      rw [magnitude_ofUnpacked_finite _ hlt (by omega) (fun hk => hge (by omega))]
      congr 3
      omega
  · simp only [hmantissa, hfinal]
    rw [dif_neg (by decide),
      magnitude_ofUnpacked_finite _ (by decide) (by omega) (fun _ => by decide)]
    simp only [heq, binadeSize]
    omega

/-- What has too few bits for its binade is given more before it is rounded. -/
theorem magnitude_round (hm : 0 < m) (he : -1074 ≤ e) :
    (ofUnpacked (UnpackedFloat.round .binary64 s m e)).magnitude =
      nearestUnits (m * scaledUp e) 1 := by
  have htarget : Format.binary64.targetExponent (totalExponent m e) =
      max (m.log2 + 1 + e - 53) (-1074) := by rw [targetExponent_eq, totalExponent]
  obtain ⟨n, hn⟩ : ∃ n : Nat, n = (e - max ((m.log2 : Int) + 1 + e - 53) (-1074)).toNat := ⟨_, rfl⟩
  have hlog : (m * 2 ^ n).log2 = m.log2 + n := log2_mul_two_pow hm n
  have hscale : m * 2 ^ n * scaledUp (e - n) = m * scaledUp e := by
    rw [scaledUp, scaledUp, Nat.mul_assoc, ← Nat.pow_add]
    congr 2
    omega
  have hdown : 1 * scaledDown (e - n) = 1 := by
    rw [scaledDown, show (-1074 - (e - n)).toNat = 0 by omega, Nat.pow_zero]
  have hround := magnitude_roundWithAccuracy (s := s) (e := e - n) Nat.one_pos
    (by rw [Nat.div_one]; exact represents_exact (m * 2 ^ n)) (by rw [Nat.div_one, hlog]; omega)
  rw [hscale, hdown, Nat.div_one] at hround
  simp only [UnpackedFloat.round, decreaseExponent, htarget, Nat.shiftLeft_eq, ← hn]
  exact hround

end Shifting

section Signs

/-- The sign that a result has, if it is a number. -/
def HasSign (s : Sign) : UnpackedFloat → Prop
  | .notANumber => False
  | .infinity t | .zero t | .finite t _ _ _ => t = s

variable {s : Sign} {u : UnpackedFloat}

theorem isNegative_iff (x : Binary64) :
    x.isNegative ↔ Sign.ofBitVec (@unpackSign .binary64 x.bits.toBitVec) = .negative := by
  have hlt := x.bits.toBitVec.isLt
  have hsign : (@unpackSign .binary64 x.bits.toBitVec).toNat = x.bits.toNat / 2 ^ 63 := by
    simp only [unpackSign, BitVec.toNat_cast, BitVec.extractLsb_toNat, Nat.shiftRight_eq_div_pow,
      UInt64.toNat]
    omega
  have hzero : @unpackSign .binary64 x.bits.toBitVec = 0#1 ↔ x.bits.toNat / 2 ^ 63 = 0 := by
    rw [← hsign]
    exact BitVec.toNat_inj.symm
  rw [isNegative, decide_eq_true_iff, Sign.ofBitVec, signBit]
  split
  · rename_i h
    rw [hzero] at h
    exact iff_of_false (by omega) Sign.noConfusion
  · rename_i h
    rw [hzero] at h
    exact iff_of_true (by omega) rfl

theorem isNegative_ofUnpacked (h : HasSign s u) :
    (ofUnpacked u).isNegative ↔ s = .negative := by
  have hpacked (e : BitVec 11) (m : BitVec 52) :
      (Binary64.mk (.ofBitVec (packComponents .binary64 s e m))).isNegative ↔ s = .negative := by
    have hsign := @unpackSign_packComponents .binary64 s e m
    rw [isNegative_iff, hsign, Sign.ofBitVec_toBitVec]
  cases u with
  | notANumber => exact h.elim
  | infinity t =>
      cases h
      exact hpacked _ _
  | zero t =>
      cases h
      exact hpacked _ _
  | finite t m e hm =>
      cases h
      have hfinite : ofUnpacked (.finite s m e hm) =
          .mk (.ofBitVec (pack .binary64 (.finite s m e hm))) := rfl
      rw [hfinite, pack]
      split
      · exact hpacked _ _
      · split
        · exact hpacked _ _
        · exact hpacked _ _

theorem hasSign_roundWithAccuracy (s : Sign) (m : Nat) (e : Int) (a : Accuracy) :
    HasSign s (roundWithAccuracy .binary64 s m e a) := by
  unfold roundWithAccuracy
  dsimp only
  split <;> rfl

end Signs

end Reckon.Binary64
