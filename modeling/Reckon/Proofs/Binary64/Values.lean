import Reckon.Proofs.Binary64.Rounding

/-!
Numbers by their exact values. A finite number is a whole number of units, and numbers are
ordered as their values are. Both zeros stand at one place: which zero a number is, is not
followed here.
-/

namespace Reckon.Binary64

open Float.Model (Format UnpackedFloat)
open Float.Model.UnpackedFloat

/-- Where a number stands among all numbers: both zeros at the same place, and infinities at
both ends. -/
def place (x : Binary64) : Int := if x.isNegative then -x.magnitude else x.magnitude

/-- The exact value of a finite number, in units. -/
def exact (x : Binary64) : Int := if x.isNegative then -units x.magnitude else units x.magnitude

/-- The place of the number nearest to a fraction of units. -/
def nearestPlace (num : Int) (den : Nat) : Int := num.sign * nearestUnits num.natAbs den

variable {x y : Binary64} {num : Int} {den : Nat}

section Places

theorem natAbs_place (x : Binary64) : x.place.natAbs = x.magnitude := by
  rw [place]
  split <;> omega

theorem isFinite_iff : x.isFinite ↔ x.place.natAbs < infinity := by
  rw [natAbs_place, isFinite, decide_eq_true_iff]

theorem isNaN_iff : x.isNaN ↔ infinity < x.place.natAbs := by
  rw [natAbs_place, isNaN, decide_eq_true_iff]

theorem not_isNaN_of_isFinite (h : x.isFinite) : ¬x.isNaN := by
  rw [isFinite_iff] at h
  rw [isNaN_iff]
  omega

theorem units_zero : units 0 = 0 := rfl

theorem exact_lt_exact : x.exact < y.exact ↔ x.place < y.place := by
  have hx := units_strictMono.lt_iff_lt (a := x.magnitude) (b := y.magnitude)
  have hy := units_strictMono.lt_iff_lt (a := y.magnitude) (b := x.magnitude)
  have hx0 := units_strictMono.lt_iff_lt (a := 0) (b := x.magnitude)
  have hy0 := units_strictMono.lt_iff_lt (a := 0) (b := y.magnitude)
  rw [units_zero] at hx0 hy0
  rw [exact, exact, place, place]
  split <;> split <;> omega

theorem exact_le_exact : x.exact ≤ y.exact ↔ x.place ≤ y.place := by
  rw [← Int.not_lt, ← Int.not_lt, exact_lt_exact]

theorem nearestUnits_zero (den : Nat) : nearestUnits 0 den = 0 := by
  simp [nearestUnits, binadeOf, roundHalfEven]

theorem nearestPlace_natCast (n den : Nat) : nearestPlace n den = nearestUnits n den := by
  rw [nearestPlace, Int.natAbs_natCast]
  obtain rfl | hpos := Nat.eq_zero_or_pos n
  · rw [nearestUnits_zero]
    rfl
  · rw [Int.sign_eq_one_of_pos (Int.natCast_pos.2 hpos), Int.one_mul]

theorem nearestPlace_neg (num : Int) (den : Nat) :
    nearestPlace (-num) den = -nearestPlace num den := by
  rw [nearestPlace, nearestPlace, Int.sign_neg, Int.natAbs_neg, Int.neg_mul]

theorem natAbs_nearestPlace (num : Int) (den : Nat) :
    (nearestPlace num den).natAbs = nearestUnits num.natAbs den := by
  obtain ⟨n, rfl | rfl⟩ := Int.eq_nat_or_neg num
  · rw [nearestPlace_natCast, Int.natAbs_natCast, Int.natAbs_natCast]
  · rw [nearestPlace_neg, nearestPlace_natCast, Int.natAbs_neg, Int.natAbs_natCast,
      Int.natAbs_neg, Int.natAbs_natCast]

/-- A greater fraction has no smaller number nearest to it. -/
theorem nearestPlace_mono {num' : Int} {den' : Nat} (hd : 0 < den) (hd' : 0 < den')
    (h : num * den' ≤ num' * den) : nearestPlace num den ≤ nearestPlace num' den' := by
  obtain ⟨n, rfl | rfl⟩ := Int.eq_nat_or_neg num <;>
    obtain ⟨n', rfl | rfl⟩ := Int.eq_nat_or_neg num' <;>
    simp only [nearestPlace_neg, nearestPlace_natCast]
  · have hmono := nearestUnits_mono hd hd' (by exact_mod_cast h)
    omega
  · have hzero : n * den' + n' * den ≤ 0 := by
      rw [Int.neg_mul] at h
      have h' : (n * den' : Int) + n' * den ≤ 0 := by omega
      exact_mod_cast h'
    have hn : n = 0 := by
      by_contra hne
      have := Nat.mul_pos (Nat.pos_of_ne_zero hne) hd'
      omega
    have hn' : n' = 0 := by
      by_contra hne
      have := Nat.mul_pos (Nat.pos_of_ne_zero hne) hd
      omega
    rw [hn, hn', nearestUnits_zero, nearestUnits_zero]
    rfl
  · omega
  · rw [Int.neg_mul, Int.neg_mul, Int.neg_le_neg_iff] at h
    have hmono := nearestUnits_mono hd' hd (by exact_mod_cast h)
    omega

theorem nearestPlace_congr {num' : Int} {den' : Nat} (hd : 0 < den) (hd' : 0 < den')
    (h : num * den' = num' * den) : nearestPlace num den = nearestPlace num' den' :=
  Int.le_antisymm (nearestPlace_mono hd hd' h.le) (nearestPlace_mono hd' hd h.ge)

/-- A finite number is nearest to its own value. -/
theorem nearestPlace_exact (h : x.isFinite) : nearestPlace x.exact 1 = x.place := by
  have hlt : x.magnitude < infinity := of_decide_eq_true h
  have hnearest := nearestUnits_units Nat.one_pos x.magnitude
  rw [Nat.mul_one, min_eq_left (Nat.le_of_lt hlt)] at hnearest
  rw [exact, place]
  split
  · rw [nearestPlace_neg, nearestPlace_natCast, hnearest]
  · rw [nearestPlace_natCast, hnearest]

theorem not_isNaN_of_place (h : x.place = nearestPlace num den) : ¬x.isNaN := by
  rw [isNaN_iff, h, natAbs_nearestPlace]
  exact Nat.not_lt.2 (nearestUnits_le _ _)

theorem exact_eq_sign_mul (x : Binary64) : x.exact = x.place.sign * units x.place.natAbs := by
  rw [natAbs_place, exact, place]
  obtain hz | hpos := Nat.eq_zero_or_pos x.magnitude
  · rw [hz]
    split <;> rfl
  · have hsign : (x.magnitude : Int).sign = 1 := Int.sign_eq_one_of_pos (Int.natCast_pos.2 hpos)
    split
    · rw [Int.sign_neg, hsign, Int.neg_one_mul]
    · rw [hsign, Int.one_mul]

theorem exact_of_place_natCast {m : Nat} (h : x.place = m) : x.exact = units m := by
  rw [exact_eq_sign_mul, h, Int.natAbs_natCast]
  obtain rfl | hpos := Nat.eq_zero_or_pos m
  · rfl
  · rw [Int.sign_eq_one_of_pos (Int.natCast_pos.2 hpos), Int.one_mul]

/-- A finite number at the place of a value that is not rounded has the value. -/
theorem exact_of_place (h : x.place = nearestPlace num 1)
    (hlt : nearestUnits num.natAbs 1 < infinity)
    (hunits : units (nearestUnits num.natAbs 1) = num.natAbs) : x.isFinite ∧ x.exact = num := by
  have hplace : x.place.natAbs = nearestUnits num.natAbs 1 := by rw [h, natAbs_nearestPlace]
  have hsign : x.place.sign = num.sign := by
    rw [h, nearestPlace, Int.sign_mul, Int.sign_sign]
    obtain rfl | hne := eq_or_ne num 0
    · rfl
    · have hpos := nearestUnits_pos (Int.natAbs_pos.2 hne)
      rw [Int.sign_eq_one_of_pos (Int.natCast_pos.2 hpos), Int.mul_one]
  refine ⟨isFinite_iff.2 (by rwa [hplace]), ?_⟩
  rw [exact_eq_sign_mul, hsign, hplace, hunits, Int.sign_mul_natAbs]

end Places

section Unpacked

/-- The sign that a pattern is unpacked with. -/
def sign (x : Binary64) : Sign := Sign.ofBitVec (@unpackSign .binary64 x.bits.toBitVec)

theorem isNegative_eq_true : x.isNegative ↔ x.sign = .negative := isNegative_iff x

theorem isNegative_eq_false : x.isNegative = false ↔ x.sign = .positive := by
  rw [← Bool.not_eq_true, isNegative_eq_true]
  cases x.sign with
  | negative => exact iff_of_false (fun h => h rfl) nofun
  | positive => exact iff_of_true nofun rfl

theorem ite_isNegative (x : Binary64) (n : Nat) :
    (if x.isNegative then -(n : Int) else n) = x.sign.apply n := by
  cases hs : x.sign with
  | negative => rw [isNegative_eq_true.2 hs, if_pos rfl, Sign.apply]
  | positive => rw [isNegative_eq_false.2 hs, if_neg Bool.false_ne_true, Sign.apply]

theorem place_eq_apply (x : Binary64) : x.place = x.sign.apply x.magnitude :=
  x.ite_isNegative x.magnitude

theorem exact_eq_apply (x : Binary64) : x.exact = x.sign.apply (units x.magnitude) :=
  x.ite_isNegative (units x.magnitude)

/-- A significand in its binade: of 53 bits, or of fewer in the least one. -/
structure Canonical (m : Nat) (e : Int) : Prop where
  lt : m < 2 ^ 53
  le : -1074 ≤ e
  ge : -1074 < e → 2 ^ 52 ≤ m

theorem units_of_canonical {m : Nat} {e : Int} (h : Canonical m e) :
    units ((e + 1074).toNat * binadeSize + m) = m * scaledUp e :=
  units_add (Nat.le_of_lt h.lt) fun hk => h.ge (by omega)

/-- What the kinds of patterns are unpacked to. -/
theorem unpacked_spec (x : Binary64) :
    infinity < x.magnitude ∧ x.unpacked = .notANumber ∨
      x.magnitude = infinity ∧ x.unpacked = .infinity x.sign ∨
      x.magnitude = 0 ∧ x.unpacked = .zero x.sign ∨
      ∃ m e hm, x.unpacked = .finite x.sign m e hm ∧ Canonical m e ∧
        x.magnitude = (e + 1074).toNat * binadeSize + m ∧ x.magnitude < infinity := by
  have hm : (@unpackMantissa .binary64 x.bits.toBitVec).toNat < 2 ^ 52 := BitVec.isLt _
  rw [magnitude_eq, infinity, unpacked, binadeSize]
  obtain ⟨he, hm0, hu⟩ | ⟨he, hm0, hu⟩ | ⟨he, hm0, hu⟩ | ⟨he, hpos, hu⟩ | ⟨he, he', hpos, hu⟩ :=
    unpack_cases x.bits.toBitVec
  · exact .inl ⟨by omega, hu⟩
  · exact .inr (.inl ⟨by omega, hu⟩)
  · exact .inr (.inr (.inl ⟨by omega, hu⟩))
  · exact .inr (.inr (.inr ⟨_, _, hpos, hu, ⟨by omega, by omega, by omega⟩, by omega, by omega⟩))
  · exact .inr (.inr (.inr ⟨_, _, hpos, hu, ⟨by omega, by omega, by omega⟩, by omega, by omega⟩))

theorem unpacked_of_isFinite (h : x.isFinite) :
    x.exact = 0 ∧ x.unpacked = .zero x.sign ∨
      ∃ m e hm, x.unpacked = .finite x.sign m e hm ∧ Canonical m e ∧
        x.exact = x.sign.apply (m * scaledUp e : Nat) := by
  have hlt : x.magnitude < infinity := of_decide_eq_true h
  obtain ⟨hm, -⟩ | ⟨hm, -⟩ | ⟨hm, hu⟩ | ⟨m, e, hpos, hu, hc, hm, -⟩ := x.unpacked_spec
  · omega
  · omega
  · refine .inl ⟨?_, hu⟩
    rw [exact_eq_apply, hm]
    cases x.sign <;> rfl
  · refine .inr ⟨m, e, hpos, hu, hc, ?_⟩
    rw [exact_eq_apply, hm, units_of_canonical hc]

end Unpacked

section Order

/-- In their binades significands are ordered as magnitudes are. -/
theorem compare_canonical {m m' : Nat} {e e' : Int} (h : Canonical m e) (h' : Canonical m' e') :
    (compare e e').then (compare m m') =
      compare ((e + 1074).toNat * binadeSize + m) ((e' + 1074).toNat * binadeSize + m') := by
  obtain ⟨hlt, hle, hge⟩ := h
  obtain ⟨hlt', hle', hge'⟩ := h'
  obtain hl | he | hg := Int.lt_trichotomy e e'
  · have hm' := hge' (by omega)
    rw [Int.compare_eq_lt.2 hl]
    refine (Nat.compare_eq_lt.2 ?_).symm
    simp only [binadeSize]
    omega
  · subst he
    rw [Int.compare_eq_eq.2 rfl]
    change compare m m' = _
    cases hc : compare m m' with
    | lt => exact (Nat.compare_eq_lt.2 (Nat.add_lt_add_left (Nat.compare_eq_lt.1 hc) _)).symm
    | eq => exact (Nat.compare_eq_eq.2 (congrArg _ (Nat.compare_eq_eq.1 hc))).symm
    | gt => exact (Nat.compare_eq_gt.2 (Nat.add_lt_add_left (Nat.compare_eq_gt.1 hc) _)).symm
  · have hm := hge (by omega)
    rw [Int.compare_eq_gt.2 hg]
    refine (Nat.compare_eq_gt.2 ?_).symm
    simp only [binadeSize]
    omega

theorem compare_apply_positive (m n : Nat) :
    compare (Sign.positive.apply m) (Sign.positive.apply n) = compare m n := by
  cases hc : compare m n with
  | lt => exact Int.compare_eq_lt.2 (Int.ofNat_lt.2 (Nat.compare_eq_lt.1 hc))
  | eq => exact Int.compare_eq_eq.2 (congrArg Int.ofNat (Nat.compare_eq_eq.1 hc))
  | gt => exact Int.compare_eq_gt.2 (Int.ofNat_lt.2 (Nat.compare_eq_gt.1 hc))

theorem compare_apply_negative (m n : Nat) :
    compare (Sign.negative.apply m) (Sign.negative.apply n) = (compare m n).swap := by
  cases hc : compare m n with
  | lt => exact Int.compare_eq_gt.2 (Int.neg_lt_neg (Int.ofNat_lt.2 (Nat.compare_eq_lt.1 hc)))
  | eq => exact Int.compare_eq_eq.2 (congrArg (-Int.ofNat ·) (Nat.compare_eq_eq.1 hc))
  | gt => exact Int.compare_eq_lt.2 (Int.neg_lt_neg (Int.ofNat_lt.2 (Nat.compare_eq_gt.1 hc)))

theorem compare_positive_negative {m n : Nat} (h : 0 < m + n) :
    compare (Sign.positive.apply m) (Sign.negative.apply n) = .gt :=
  Int.compare_eq_gt.2 (by simp only [Sign.apply]; omega)

theorem compare_negative_positive {m n : Nat} (h : 0 < m + n) :
    compare (Sign.negative.apply m) (Sign.positive.apply n) = .lt :=
  Int.compare_eq_lt.2 (by simp only [Sign.apply]; omega)

/-- What the comparison of unpacked numbers tells is where they stand. -/
theorem compare_unpacked (hx : ¬x.isNaN) (hy : ¬y.isNaN) :
    UnpackedFloat.compare x.unpacked y.unpacked = some (compare x.place y.place) := by
  rw [isNaN, decide_eq_true_iff] at hx hy
  rw [place_eq_apply, place_eq_apply]
  obtain ⟨hnx, -⟩ | ⟨hmx, hu⟩ | ⟨hmx, hu⟩ | ⟨m, e, hm, hu, hc, hmx, hltx⟩ := x.unpacked_spec <;>
    obtain ⟨hny, -⟩ | ⟨hmy, hv⟩ | ⟨hmy, hv⟩ | ⟨m', e', hm', hv, hc', hmy, hlty⟩ := y.unpacked_spec
  case inl.inl | inl.inr.inl | inl.inr.inr.inl | inl.inr.inr.inr => exact absurd hnx hx
  case inr.inl.inl | inr.inr.inl.inl | inr.inr.inr.inl => exact absurd hny hy
  -- infinities and zeros stand at fixed places
  case inr.inl.inr.inl | inr.inl.inr.inr.inl | inr.inr.inl.inr.inl | inr.inr.inl.inr.inr.inl =>
    rw [hu, hv, hmx, hmy]
    cases x.sign <;> cases y.sign <;> rfl
  all_goals
    have hpos : 0 < x.magnitude + y.magnitude := by omega
    rw [hu, hv]
  case inr.inl.inr.inr.inr | inr.inr.inr.inr.inr.inl =>
    have hgt : compare x.magnitude y.magnitude = .gt := Nat.compare_eq_gt.2 (by omega)
    cases x.sign <;> cases y.sign <;>
      simp only [compare_apply_positive, compare_apply_negative,
        compare_positive_negative hpos, compare_negative_positive hpos, hgt] <;> rfl
  case inr.inr.inl.inr.inr.inr | inr.inr.inr.inr.inl =>
    have hlt : compare x.magnitude y.magnitude = .lt := Nat.compare_eq_lt.2 (by omega)
    cases x.sign <;> cases y.sign <;>
      simp only [compare_apply_positive, compare_apply_negative,
        compare_positive_negative hpos, compare_negative_positive hpos, hlt] <;> rfl
  case inr.inr.inr.inr.inr.inr =>
    have hcanonical := compare_canonical hc hc'
    rw [← hmx, ← hmy] at hcanonical
    cases x.sign <;> cases y.sign <;>
      simp only [compare_apply_positive, compare_apply_negative,
        compare_positive_negative hpos, compare_negative_positive hpos, ← hcanonical] <;> rfl

theorem le_iff (hx : ¬x.isNaN) (hy : ¬y.isNaN) : x ≤ y ↔ x.place ≤ y.place := by
  have hle : x ≤ y ↔ (x.toFloat.toModel.unpack.compare y.toFloat.toModel.unpack).any (·.isLE) :=
    decide_eq_true_iff
  rw [hle, unpack_toFloat hx, unpack_toFloat hy, compare_unpacked hx hy, Option.any_some]
  exact Std.isLE_compare

theorem lt_iff (hx : ¬x.isNaN) (hy : ¬y.isNaN) : x < y ↔ x.place < y.place := by
  have hlt : x < y ↔ (x.toFloat.toModel.unpack.compare y.toFloat.toModel.unpack == some .lt) :=
    decide_eq_true_iff
  rw [hlt, unpack_toFloat hx, unpack_toFloat hy, compare_unpacked hx hy, beq_iff_eq,
    Option.some.injEq, Int.compare_eq_lt]

theorem equals_iff (hx : ¬x.isNaN) (hy : ¬y.isNaN) : x.equals y ↔ x.place = y.place := by
  have heq : x.equals y ↔ (x.toFloat.toModel.unpack.compare y.toFloat.toModel.unpack == some .eq) :=
    Iff.rfl
  rw [heq, unpack_toFloat hx, unpack_toFloat hy, compare_unpacked hx hy, beq_iff_eq,
    Option.some.injEq, Int.compare_eq_eq]

end Order

end Reckon.Binary64
