import Reckon.Proofs.Binary64.Values

/-!
Sums, differences, products and quotients of finite numbers: each is the number nearest to the
exact result. Whole numbers become the numbers nearest to them.
-/

namespace Reckon.Binary64

open Float.Model (Format UnpackedFloat totalExponent)
open Float.Model.UnpackedFloat

variable {x y : Binary64} {num : Int} {den : Nat}

section Results

theorem place_ofUnpacked {s : Sign} {u : UnpackedFloat} (h : HasSign s u) :
    (ofUnpacked u).place = s.apply (ofUnpacked u).magnitude := by
  have hneg := isNegative_ofUnpacked h
  rw [place]
  cases s with
  | negative => rw [hneg.2 rfl, if_pos rfl, Sign.apply]
  | positive => rw [if_neg (mt hneg.1 Sign.noConfusion), Sign.apply]

theorem apply_nearestUnits (s : Sign) (n den : Nat) :
    s.apply (nearestUnits n den) = nearestPlace (s.apply n) den := by
  cases s with
  | negative => rw [Sign.apply, Sign.apply, nearestPlace_neg, nearestPlace_natCast]
  | positive => rw [Sign.apply, Sign.apply, nearestPlace_natCast]

theorem place_round (s : Sign) {m : Nat} {e : Int} (hm : 0 < m) (he : -1074 ≤ e) :
    (ofUnpacked (UnpackedFloat.round .binary64 s m e)).place =
      nearestPlace (s.apply (m * scaledUp e : Nat)) 1 := by
  have hsign : HasSign s (UnpackedFloat.round .binary64 s m e) :=
    hasSign_roundWithAccuracy s _ _ _
  rw [place_ofUnpacked hsign, magnitude_round hm he, apply_nearestUnits]

/-- A whole number of units of some binade is packed to the number nearest to it. -/
theorem place_normalize (m : Int) {e : Int} (he : -1074 ≤ e) :
    (ofUnpacked (UnpackedFloat.normalize .binary64 m e .positive)).place =
      nearestPlace (m * scaledUp e) 1 := by
  unfold UnpackedFloat.normalize
  split
  next h =>
    have hlt := Int.compare_eq_lt.1 h
    rw [place_round _ (by omega) he, Sign.apply, Int.natCast_mul, Int.toNat_of_nonneg (by omega),
      Int.neg_mul, Int.neg_neg]
  next h =>
    have heq := Int.compare_eq_eq.1 h
    rw [heq, Int.zero_mul]
    decide
  next h =>
    have hgt := Int.compare_eq_gt.1 h
    rw [place_round _ (by omega) he, Sign.apply, Int.natCast_mul, Int.toNat_of_nonneg (by omega)]

theorem apply_mul (s : Sign) (m n : Int) : s.apply (m * n) = s.apply m * n := by
  cases s with
  | negative => exact Int.neg_mul_eq_neg_mul m n
  | positive => rfl

theorem scaledUp_of_le {e t : Int} (ht : -1074 ≤ t) (h : t ≤ e) :
    scaledUp e = 2 ^ (e - t).toNat * scaledUp t := by
  rw [scaledUp, scaledUp, ← Nat.pow_add]
  congr 1
  omega

/-- A significand with less of an exponent has the same value. -/
theorem apply_decreaseExponent (s : Sign) (m : Nat) {e t : Int} (ht : -1074 ≤ t) (h : t ≤ e) :
    s.apply (decreaseExponent m e t).1 * scaledUp t = s.apply (m * scaledUp e : Nat) := by
  rw [decreaseExponent, scaledUp_of_le ht h, ← apply_mul, Nat.shiftLeft_eq]
  push_cast
  rw [mul_assoc]

/-- A sum of finite numbers is the number nearest to the exact sum. -/
theorem place_add (hx : x.isFinite) (hy : y.isFinite) :
    (x + y).place = nearestPlace (x.exact + y.exact) 1 := by
  have hsum := add_eq (not_isNaN_of_isFinite hx) (not_isNaN_of_isFinite hy)
  obtain ⟨hx0, hu⟩ | ⟨m, e, hm, hu, hc, hx1⟩ := unpacked_of_isFinite hx
  · obtain ⟨hy0, hv⟩ | ⟨m', e', hm', hv, hc', hy1⟩ := unpacked_of_isFinite hy
    · rw [hsum, hu, hv, hx0, hy0]
      cases x.sign <;> cases y.sign <;> decide
    · have hadd : UnpackedFloat.add .binary64 x.unpacked y.unpacked = y.unpacked := by
        rw [hu, hv]
        rfl
      have hzero : x + y = y := by rw [hsum, hadd, ofUnpacked_unpacked (not_isNaN_of_isFinite hy)]
      rw [hzero, hx0, Int.zero_add, nearestPlace_exact hy]
  · obtain ⟨hy0, hv⟩ | ⟨m', e', hm', hv, hc', hy1⟩ := unpacked_of_isFinite hy
    · have hadd : UnpackedFloat.add .binary64 x.unpacked y.unpacked = x.unpacked := by
        rw [hu, hv]
        rfl
      have hzero : x + y = x := by rw [hsum, hadd, ofUnpacked_unpacked (not_isNaN_of_isFinite hx)]
      rw [hzero, hy0, Int.add_zero, nearestPlace_exact hx]
    · have hmin : -1074 ≤ min e e' := Int.le_min.2 ⟨hc.le, hc'.le⟩
      rw [hsum, hu, hv, hx1, hy1, ← apply_decreaseExponent x.sign m hmin (Int.min_le_left e e'),
        ← apply_decreaseExponent y.sign m' hmin (Int.min_le_right e e'), ← Int.add_mul]
      exact place_normalize _ hmin

theorem sub_eq (hx : ¬x.isNaN) (hy : ¬y.isNaN) :
    x - y = ofUnpacked (.sub .binary64 x.unpacked y.unpacked) := by
  rw [← unpack_toFloat hx, ← unpack_toFloat hy]
  exact (combine_eq _ hx hy).trans (ofResult_pack _)

theorem div_eq (hx : ¬x.isNaN) (hy : ¬y.isNaN) :
    x / y = ofUnpacked (.div .binary64 x.unpacked y.unpacked) := by
  rw [← unpack_toFloat hx, ← unpack_toFloat hy]
  exact (combine_eq _ hx hy).trans (ofResult_pack _)

theorem apply_neg (s : Sign) (n : Int) : (-s).apply n = -s.apply n := by
  cases s with
  | negative => exact (Int.neg_neg n).symm
  | positive => rfl

theorem apply_mul_apply (s t : Sign) (m n : Int) :
    s.apply m * t.apply n = (s * t).apply (m * n) := by
  cases s <;> cases t <;> simp only [Sign.apply, Int.neg_mul, Int.mul_neg, Int.neg_neg]

theorem nearestPlace_zero (den : Nat) : nearestPlace 0 den = 0 := Int.zero_mul _

/-- A difference of finite numbers is the number nearest to the exact difference. -/
theorem place_sub (hx : x.isFinite) (hy : y.isFinite) :
    (x - y).place = nearestPlace (x.exact - y.exact) 1 := by
  have hdifference := sub_eq (not_isNaN_of_isFinite hx) (not_isNaN_of_isFinite hy)
  obtain ⟨hx0, hu⟩ | ⟨m, e, hm, hu, hc, hx1⟩ := unpacked_of_isFinite hx
  · obtain ⟨hy0, hv⟩ | ⟨m', e', hm', hv, hc', hy1⟩ := unpacked_of_isFinite hy
    · rw [hdifference, hu, hv, hx0, hy0]
      cases x.sign <;> cases y.sign <;> decide
    · have hsub : x - y = ofUnpacked (.finite (-y.sign) m' e' hm') := by
        rw [hdifference, hu, hv]
        rfl
      have hback : ofUnpacked (.finite y.sign m' e' hm') = y := by
        rw [← hv, ofUnpacked_unpacked (not_isNaN_of_isFinite hy)]
      have hmagnitude : (x - y).magnitude = y.magnitude := by
        rw [hsub, ← hback, magnitude_ofUnpacked_finite hm' hc'.lt hc'.le hc'.ge,
          magnitude_ofUnpacked_finite hm' hc'.lt hc'.le hc'.ge]
      have hsign : HasSign (-y.sign) (.finite (-y.sign) m' e' hm') := rfl
      have hplace : (x - y).place = -y.place := by
        rw [place_eq_apply y, ← hmagnitude, ← apply_neg, hsub]
        exact place_ofUnpacked hsign
      rw [hplace, hx0, Int.zero_sub, nearestPlace_neg, nearestPlace_exact hy]
  · obtain ⟨hy0, hv⟩ | ⟨m', e', hm', hv, hc', hy1⟩ := unpacked_of_isFinite hy
    · have hsub : UnpackedFloat.sub .binary64 x.unpacked y.unpacked = x.unpacked := by
        rw [hu, hv]
        rfl
      rw [hdifference, hsub, ofUnpacked_unpacked (not_isNaN_of_isFinite hx), hy0, Int.sub_zero,
        nearestPlace_exact hx]
    · have hmin : -1074 ≤ min e e' := Int.le_min.2 ⟨hc.le, hc'.le⟩
      rw [hdifference, hu, hv, hx1, hy1,
        ← apply_decreaseExponent x.sign m hmin (Int.min_le_left e e'),
        ← apply_decreaseExponent y.sign m' hmin (Int.min_le_right e e'), ← Int.sub_mul]
      exact place_normalize _ hmin

theorem place_ofUnpacked_zero (s : Sign) : (ofUnpacked (.zero s)).place = 0 := by
  cases s <;> decide

theorem place_roundWithAccuracy (s : Sign) {num den : Nat} {e : Int} {a : Accuracy}
    (hd : 0 < den) (h : Represents (.ofMantissaAndAccuracy (num / den) a) num den)
    (he : 52 ≤ (num / den).log2 ∨ e ≤ -1074) :
    (ofUnpacked (roundWithAccuracy .binary64 s (num / den) e a)).place =
      nearestPlace (s.apply (num * scaledUp e : Nat)) (den * scaledDown e) := by
  rw [place_ofUnpacked (hasSign_roundWithAccuracy s _ _ _), magnitude_roundWithAccuracy hd h he,
    apply_nearestUnits]

theorem scaledUp_add (e e' : Int) (he : -1074 ≤ e) (he' : -1074 ≤ e') :
    scaledUp (e + e') * 2 ^ unitPlaces = scaledUp e * scaledUp e' * scaledDown (e + e') := by
  rw [scaledUp, scaledUp, scaledUp, scaledDown, unitPlaces, ← Nat.pow_add, ← Nat.pow_add,
    ← Nat.pow_add]
  congr 1
  omega

/-- A product has enough bits for its binade. -/
theorem log2_mul_of_canonical {m m' : Nat} {e e' : Int} (hm : 0 < m) (hm' : 0 < m')
    (h : Canonical m e) (h' : Canonical m' e') :
    52 ≤ (m * m').log2 ∨ e + e' ≤ -1074 := by
  have hne := Nat.ne_of_gt (Nat.mul_pos hm hm')
  rw [Nat.le_log2 hne]
  by_cases he : -1074 < e
  · exact .inl ((h.ge he).trans (Nat.le_mul_of_pos_right m hm'))
  by_cases he' : -1074 < e'
  · exact .inl ((h'.ge he').trans (Nat.le_mul_of_pos_left m' hm))
  · right
    omega

/-- A product of finite numbers is the number nearest to the exact product. -/
theorem place_mul (hx : x.isFinite) (hy : y.isFinite) :
    (x * y).place = nearestPlace (x.exact * y.exact) (2 ^ unitPlaces) := by
  have hproduct := mul_eq (not_isNaN_of_isFinite hx) (not_isNaN_of_isFinite hy)
  obtain ⟨hx0, hu⟩ | ⟨m, e, hm, hu, hc, hx1⟩ := unpacked_of_isFinite hx
  · rw [hx0, Int.zero_mul, nearestPlace_zero, hproduct, hu]
    obtain ⟨-, hv⟩ | ⟨m', e', hm', hv, -, -⟩ := unpacked_of_isFinite hy
    · rw [hv]
      exact place_ofUnpacked_zero _
    · rw [hv]
      exact place_ofUnpacked_zero _
  · obtain ⟨hy0, hv⟩ | ⟨m', e', hm', hv, hc', hy1⟩ := unpacked_of_isFinite hy
    · rw [hy0, Int.mul_zero, nearestPlace_zero, hproduct, hu, hv]
      exact place_ofUnpacked_zero _
    · have hround := place_roundWithAccuracy (x.sign * y.sign) Nat.one_pos
        (by rw [Nat.div_one]; exact represents_exact (m * m'))
        (by rw [Nat.div_one]; exact log2_mul_of_canonical hm hm' hc hc')
      rw [Nat.div_one] at hround
      rw [hproduct, hu, hv, hx1, hy1, apply_mul_apply]
      refine hround.trans (nearestPlace_congr ?_ (Nat.two_pow_pos _) ?_)
      · exact Nat.mul_pos Nat.one_pos (scaledDown_pos _)
      · have hscale := scaledUp_add e e' hc.le hc'.le
        have hvalue : m * m' * scaledUp (e + e') * 2 ^ unitPlaces =
            m * scaledUp e * (m' * scaledUp e') * (1 * scaledDown (e + e')) := by
          rw [Nat.mul_assoc (m * m'), hscale]
          ring
        rw [← apply_mul, ← Int.natCast_mul, ← apply_mul, ← Int.natCast_mul, ← Int.natCast_mul,
          hvalue]

/-- A quotient is taken with enough bits for its binade. -/
theorem log2_div_of_shift {m m' n : Nat} (hm : 0 < m) (hm' : 0 < m')
    (h : 53 + m'.log2 ≤ m.log2 + n) : 52 ≤ (m * 2 ^ n / m').log2 := by
  have hlog := log2_mul_two_pow hm n
  have hne : m * 2 ^ n ≠ 0 := Nat.ne_of_gt (Nat.mul_pos hm (Nat.two_pow_pos n))
  have hle : 2 ^ (53 + m'.log2) ≤ m * 2 ^ n := (Nat.le_log2 hne).1 (by rw [hlog]; exact h)
  have hlt : m' < 2 ^ (m'.log2 + 1) := ((Nat.log2_eq_iff (Nat.ne_of_gt hm')).1 rfl).2
  have hquotient : 2 ^ 52 ≤ m * 2 ^ n / m' := by
    rw [Nat.le_div_iff_mul_le hm']
    calc 2 ^ 52 * m' ≤ 2 ^ 52 * 2 ^ (m'.log2 + 1) := Nat.mul_le_mul_left _ (Nat.le_of_lt hlt)
      _ = 2 ^ (53 + m'.log2) := by
        rw [← Nat.pow_add]
        congr 1
        omega
      _ ≤ m * 2 ^ n := hle
  exact (Nat.le_log2 (Nat.ne_of_gt (Nat.lt_of_lt_of_le (Nat.two_pow_pos 52) hquotient))).2 hquotient

theorem place_div_finite (s : Sign) {m m' : Nat} {e e' : Int} (hm : 0 < m) (hm' : 0 < m')
    (he : -1074 ≤ e) (he' : -1074 ≤ e') :
    (ofUnpacked (roundWithAccuracy .binary64 s (divCore .binary64 m e m' e').1
      (divCore .binary64 m e m' e').2.1 (divCore .binary64 m e m' e').2.2)).place =
      nearestPlace (s.apply (m * scaledUp e * 2 ^ unitPlaces : Nat)) (m' * scaledUp e') := by
  have htarget : Format.binary64.targetExponent (totalExponent m e - totalExponent m' e') =
      max ((m.log2 + 1 + e) - (m'.log2 + 1 + e') - 53) (-1074) := by
    rw [targetExponent_eq, totalExponent, totalExponent]
  obtain ⟨t, ht⟩ : ∃ t : Int, t = min (e - e')
      (max ((m.log2 + 1 + e) - (m'.log2 + 1 + e') - 53) (-1074)) := ⟨_, rfl⟩
  simp only [divCore, htarget, ← ht, Nat.shiftLeft_eq]
  have hlog : 52 ≤ (m * 2 ^ (e - e' - t).toNat / m').log2 ∨ t ≤ -1074 := by
    by_cases hsmall : t ≤ -1074
    · exact .inr hsmall
    · exact .inl (log2_div_of_shift hm hm' (by omega))
  have hround := place_roundWithAccuracy s hm' (represents_fraction hm' _) hlog
  refine hround.trans (nearestPlace_congr ?_ ?_ ?_)
  · exact Nat.mul_pos hm' (scaledDown_pos t)
  · exact Nat.mul_pos hm' (scaledUp_pos e')
  · have hscale : 2 ^ (e - e' - t).toNat * scaledUp t * scaledUp e' =
        scaledUp e * 2 ^ unitPlaces * scaledDown t := by
      rw [scaledUp, scaledUp, scaledUp, scaledDown, unitPlaces, ← Nat.pow_add, ← Nat.pow_add,
        ← Nat.pow_add, ← Nat.pow_add]
      congr 1
      omega
    have hvalue : m * 2 ^ (e - e' - t).toNat * scaledUp t * (m' * scaledUp e') =
        m * scaledUp e * 2 ^ unitPlaces * (m' * scaledDown t) := by
      calc m * 2 ^ (e - e' - t).toNat * scaledUp t * (m' * scaledUp e')
          = m * m' * (2 ^ (e - e' - t).toNat * scaledUp t * scaledUp e') := by ring
        _ = m * scaledUp e * 2 ^ unitPlaces * (m' * scaledDown t) := by
          rw [hscale]
          ring
    rw [← apply_mul, ← Int.natCast_mul, ← apply_mul, ← Int.natCast_mul, hvalue]

/-- A quotient of finite numbers is the number nearest to the exact quotient. -/
theorem place_div (hx : x.isFinite) (hy : y.isFinite) (hpos : 0 < y.exact) :
    (x / y).place = nearestPlace (x.exact * 2 ^ unitPlaces) y.exact.natAbs := by
  have hquotient := div_eq (not_isNaN_of_isFinite hx) (not_isNaN_of_isFinite hy)
  obtain ⟨hy0, -⟩ | ⟨m', e', hm', hv, hc', hy1⟩ := unpacked_of_isFinite hy
  · omega
  have hsign : y.sign = .positive := by
    cases hs : y.sign with
    | positive => rfl
    | negative =>
        rw [hs, Sign.apply] at hy1
        omega
  rw [hsign, Sign.apply] at hy1
  rw [hy1, Int.natAbs_natCast]
  obtain ⟨hx0, hu⟩ | ⟨m, e, hm, hu, hc, hx1⟩ := unpacked_of_isFinite hx
  · rw [hx0, Int.zero_mul, nearestPlace_zero, hquotient, hu, hv]
    exact place_ofUnpacked_zero _
  · have hdiv := place_div_finite (x.sign / .positive) hm hm' hc.le hc'.le
    have hsame : x.sign / .positive = x.sign := by cases x.sign <;> rfl
    rw [hsame, Int.natCast_mul, Int.natCast_pow, Nat.cast_ofNat] at hdiv
    rw [hquotient, hu, hv, hx1, ← apply_mul, ← hdiv, hsign]
    cases x.sign <;> rfl

/-- Zero is shared out among any number, infinity included. -/
theorem place_zero_div (hx : x.isFinite) (h : x.exact = 0) (hy : 0 < y.place) (hnan : ¬y.isNaN) :
    (x / y).place = 0 := by
  have hu : x.unpacked = .zero x.sign := by
    obtain ⟨-, hu⟩ | ⟨m, e, hm, -, -, hx1⟩ := unpacked_of_isFinite hx
    · exact hu
    · have hpos : (0 : Int) < (m * scaledUp e : Nat) :=
        Int.natCast_pos.2 (Nat.mul_pos hm (scaledUp_pos e))
      rw [h] at hx1
      cases hs : x.sign <;> rw [hs, Sign.apply] at hx1 <;> omega
  rw [div_eq (not_isNaN_of_isFinite hx) hnan, hu]
  obtain ⟨hm, -⟩ | ⟨-, hv⟩ | ⟨hm, -⟩ | ⟨m, e, hm, hv, -⟩ := y.unpacked_spec
  · exact absurd (decide_eq_true hm) hnan
  · rw [hv]
    exact place_ofUnpacked_zero _
  · rw [place, hm] at hy
    split at hy <;> omega
  · rw [hv]
    exact place_ofUnpacked_zero _

theorem not_isFinite_div (hx : ¬x.isFinite) (hy : y.isFinite) : ¬(x / y).isFinite := by
  obtain ⟨hm, -⟩ | ⟨hm, hu⟩ | ⟨hm, -⟩ | ⟨-, -, -, -, -, -, hm⟩ := x.unpacked_spec
  · have hnan : x / y = x := if_pos (decide_eq_true hm)
    rwa [hnan]
  · have hnan : ¬x.isNaN := by
      rw [isNaN, decide_eq_true_iff, hm]
      exact Nat.lt_irrefl _
    have hinfinite : ∃ s, UnpackedFloat.div .binary64 x.unpacked y.unpacked = .infinity s := by
      rw [hu]
      obtain ⟨-, hv⟩ | ⟨m, e, hm', hv, -⟩ := unpacked_of_isFinite hy
      · exact ⟨_, by rw [hv]; rfl⟩
      · exact ⟨_, by rw [hv]; rfl⟩
    obtain ⟨s, hs⟩ := hinfinite
    rw [div_eq hnan (not_isNaN_of_isFinite hy), hs]
    cases s <;> decide
  · exact absurd (decide_eq_true (hm ▸ by decide)) hx
  · exact absurd (decide_eq_true hm) hx

end Results

section Whole

theorem ofFloat_pack {u : UnpackedFloat} (h : u.isNaN = false) :
    ofFloat (.ofModel (.pack u)) = ofUnpacked u := by
  cases u with
  | notANumber => cases h
  | _ => rfl

theorem isNaN_of_ofUnpacked {u : UnpackedFloat} (h : ¬(ofUnpacked u).isNaN) : u.isNaN = false := by
  cases u with
  | notANumber => exact absurd (by decide) h
  | _ => rfl

theorem bits_ofUnpacked {u : UnpackedFloat} (h : u.isNaN = false) :
    (ofUnpacked u).bits.toBitVec = pack .binary64 u := by
  cases u with
  | notANumber => cases h
  | _ => rfl

theorem place_ofUnpacked_ofNat (n : Nat) :
    (ofUnpacked (.ofNat .binary64 n)).place = nearestPlace (n * 2 ^ unitPlaces : Nat) 1 := by
  have hscale : scaledUp 0 = 2 ^ unitPlaces := congrArg (2 ^ ·) (by decide)
  have h := place_normalize n (e := 0) (by decide)
  rw [hscale, ← Int.natCast_mul] at h
  exact h

/-- Small whole numbers are made from words, and multiplied by the zeroth power of ten. -/
theorem ofNat_eq_mul {n : Nat} (h : n < 2 ^ 53) :
    ofNat n = ofUnpacked (.ofNat .binary64 n) * ⟨0x3FF0000000000000⟩ := by
  have hproduct : Float.ofNat n = n.toUInt64.toFloat * .ofBits 0x3FF0000000000000 := by
    have hsmall : n < 2 ^ 53 ∧ 0 ≤ 22 := ⟨h, by decide⟩
    rw [Float.ofNat]
    change Float.ofScientific n false 0 = _
    rw [Float.ofScientific, dif_pos hsmall]
    rfl
  have hnan := not_isNaN_of_place (place_ofUnpacked_ofNat n)
  have hone : ¬(Binary64.mk 0x3FF0000000000000).isNaN := by decide
  have hword : n.toUInt64.toFloat.toModel.unpack = (ofUnpacked (.ofNat .binary64 n)).unpacked := by
    rw [unpacked, bits_ofUnpacked (isNaN_of_ofUnpacked hnan)]
    change UnpackedFloat.unpack .binary64 (pack .binary64 (.ofNat .binary64 n.toUInt64.toNat)) = _
    rw [Nat.toUInt64, UInt64.toNat_ofNat_of_lt' (Nat.lt_trans h (by decide))]
  have hfinite : (ofUnpacked (.ofNat .binary64 n)).isFinite := by
    obtain ⟨hlt, -⟩ := units_nearestUnits_of_significand (k := unitPlaces) h (by decide)
    rw [isFinite_iff, place_ofUnpacked_ofNat, natAbs_nearestPlace, Int.natAbs_natCast]
    exact hlt
  have hnumber := not_isNaN_of_place (place_mul hfinite (y := ⟨0x3FF0000000000000⟩) (by decide))
  rw [mul_eq hnan hone] at hnumber ⊢
  rw [← ofFloat_pack (isNaN_of_ofUnpacked hnumber), ← hword, ← unpack_toFloat hone]
  rw [ofNat, hproduct]
  rfl

/-- Great whole numbers are made from more bits than are needed. -/
theorem ofScientific_eq {n : Nat} (h : 0 < n) : UnpackedFloat.ofScientific .binary64 n 0 =
    roundWithAccuracy .binary64 .positive (n * 2 ^ 53) (-53) .exact := by
  have hexponent : ¬(0 : Int) < -(2 ^ Format.binary64.exponentBits + n.log2) := by
    have hpow : (0 : Int) ≤ 2 ^ Format.binary64.exponentBits := by decide
    omega
  rw [UnpackedFloat.ofScientific, dif_neg (Nat.ne_of_gt h), if_neg (by decide), if_neg hexponent,
    if_pos (Int.le_refl 0), UnpackedFloat.mul]
  have hbits : Format.binary64.mantissaBits = 53 := rfl
  have hsign : Sign.positive * Sign.positive = Sign.positive := rfl
  have hexp : -((53 : Nat) : Int) + 0 = -53 := rfl
  simp only [hbits, hsign, hexp, Nat.shiftLeft_eq, Int.toNat_zero, Nat.pow_zero, Nat.mul_one]

theorem place_ofScientific {n : Nat} (h : 0 < n) :
    (ofUnpacked (.ofScientific .binary64 n 0)).place =
      nearestPlace (n * 2 ^ unitPlaces : Nat) 1 := by
  have hlog : (n * 2 ^ 53).log2 = n.log2 + 53 := log2_mul_two_pow h 53
  have hround := place_roundWithAccuracy .positive Nat.one_pos (e := -53)
    (by rw [Nat.div_one]; exact represents_exact (n * 2 ^ 53)) (by rw [Nat.div_one, hlog]; omega)
  have hup : n * 2 ^ 53 * scaledUp (-53) = n * 2 ^ unitPlaces := by
    rw [scaledUp, Nat.mul_assoc, ← Nat.pow_add]
    congr 2
  have hdown : 1 * scaledDown (-53) = 1 := by decide
  rw [Nat.div_one, hup, hdown] at hround
  rw [ofScientific_eq h]
  exact hround

/-- A whole number becomes the number nearest to it. -/
theorem place_ofNat (n : Nat) : (ofNat n).place = nearestPlace (n * 2 ^ unitPlaces : Nat) 1 := by
  by_cases h : n < 2 ^ 53
  · obtain ⟨hlt, hunits⟩ := units_nearestUnits_of_significand (k := unitPlaces) h (by decide)
    rw [← Int.natAbs_natCast (n * 2 ^ unitPlaces)] at hlt hunits
    obtain ⟨hfinite, hexact⟩ := exact_of_place (place_ofUnpacked_ofNat n) hlt hunits
    have hone : (Binary64.mk 0x3FF0000000000000).exact = (2 ^ unitPlaces : Nat) := by
      decide +kernel
    rw [ofNat_eq_mul h, place_mul hfinite (y := ⟨0x3FF0000000000000⟩) (by decide), hexact, hone]
    refine nearestPlace_congr (Nat.two_pow_pos _) Nat.one_pos ?_
    rw [Int.natCast_one, Int.mul_one]
  · have hplace := place_ofScientific (Nat.lt_of_lt_of_le (by decide) (Nat.le_of_not_lt h))
    have hlarge : ¬(n < 2 ^ 53 ∧ 0 ≤ 22) := fun hsmall => h hsmall.1
    have hmodel : ofNat n = ofFloat (.ofModel (.pack (.ofScientific .binary64 n 0))) := by
      rw [ofNat, Float.ofNat]
      change ofFloat (Float.ofScientific n false 0) = _
      rw [Float.ofScientific, dif_neg hlarge]
      rfl
    rw [hmodel, ofFloat_pack (isNaN_of_ofUnpacked (not_isNaN_of_place hplace)), hplace]

/-- Whole numbers below `2 ^ 53` are not rounded. -/
theorem exact_ofNat {n : Nat} (h : n < 2 ^ 53) :
    (ofNat n).isFinite ∧ (ofNat n).exact = (n * 2 ^ unitPlaces : Nat) := by
  obtain ⟨hlt, hunits⟩ := units_nearestUnits_of_significand (k := unitPlaces) h (by decide)
  exact exact_of_place (place_ofNat n) hlt hunits

/-- The share of a number, as far as the divisor is not rounded. -/
theorem place_div_ofNat {n : Nat} (hx : x.isFinite) (hn : 0 < n) (h : n < 2 ^ 53 ∨ x.exact = 0) :
    (x / ofNat n).place = nearestPlace x.exact n := by
  obtain h | h := h
  · obtain ⟨hfinite, hexact⟩ := exact_ofNat h
    have hpos : 0 < n * 2 ^ unitPlaces := Nat.mul_pos hn (Nat.two_pow_pos _)
    rw [place_div hx hfinite (by rw [hexact]; exact Int.natCast_pos.2 hpos), hexact,
      Int.natAbs_natCast]
    refine nearestPlace_congr hpos hn ?_
    push_cast
    ring
  · have hpos : 0 < (ofNat n).place := by
      rw [place_ofNat, nearestPlace_natCast]
      exact Int.natCast_pos.2 (nearestUnits_pos (Nat.mul_pos hn (Nat.two_pow_pos _)))
    rw [place_zero_div hx h hpos (not_isNaN_of_place (place_ofNat n)), h, nearestPlace_zero]

end Whole

end Reckon.Binary64
