import Mathlib.Algebra.Order.Ring.Nat
import Mathlib.Tactic.Linarith
import Mathlib.Tactic.Ring
import Reckon.Proofs.Binary64.Nearest

/-!
Rounding any fraction to a binary64 magnitude. A fraction is rounded within its binade, to a
whole multiple of the binade's unit; so a greater fraction is rounded to no smaller magnitude,
and the error is at most half of that unit.
-/

namespace Reckon

section RoundHalfEven

variable {a b c d num den : Nat}

theorem div_le_roundHalfEven (num den : Nat) : num / den ≤ roundHalfEven num den := by
  unfold roundHalfEven
  dsimp only
  split_ifs <;> omega

theorem roundHalfEven_le_div_succ (num den : Nat) : roundHalfEven num den ≤ num / den + 1 := by
  unfold roundHalfEven
  dsimp only
  split_ifs <;> omega

theorem roundHalfEven_mul_right (hc : 0 < c) (num den : Nat) :
    roundHalfEven (num * c) (den * c) = roundHalfEven num den := by
  have hlt : 2 * (num % den * c) < den * c ↔ 2 * (num % den) < den := by
    rw [← Nat.mul_assoc, Nat.mul_lt_mul_right hc]
  have hgt : den * c < 2 * (num % den * c) ↔ den < 2 * (num % den) := by
    rw [← Nat.mul_assoc, Nat.mul_lt_mul_right hc]
  simp only [roundHalfEven, Nat.mul_div_mul_right _ _ hc, Nat.mul_mod_mul_right, hlt, hgt]

theorem div_le_div (hb : 0 < b) (hd : 0 < d) (h : a * d ≤ c * b) : a / b ≤ c / d := by
  rw [Nat.le_div_iff_mul_le hd]
  have hscaled : a / b * d * b ≤ c * b := by
    calc a / b * d * b = b * (a / b) * d := by ring
      _ ≤ a * d := Nat.mul_le_mul_right d (Nat.mul_div_le a b)
      _ ≤ c * b := h
  exact Nat.le_of_mul_le_mul_right hscaled hb

/-- A greater fraction is not rounded to less. -/
theorem roundHalfEven_mono (hb : 0 < b) (hd : 0 < d) (h : a * d ≤ c * b) :
    roundHalfEven a b ≤ roundHalfEven c d := by
  have ha := Nat.div_add_mod a b
  have hc := Nat.div_add_mod c d
  have hle := div_le_div hb hd h
  obtain hlt | heq := Nat.lt_or_eq_of_le hle
  · calc roundHalfEven a b ≤ a / b + 1 := roundHalfEven_le_div_succ a b
      _ ≤ c / d := hlt
      _ ≤ roundHalfEven c d := div_le_roundHalfEven c d
  · have hrest : a % b * d ≤ c % d * b := by
      rw [← ha, ← hc, heq] at h
      nlinarith
    have hgt (hr : b < 2 * (a % b)) : d < 2 * (c % d) := by nlinarith
    have hge (hr : b ≤ 2 * (a % b)) : d ≤ 2 * (c % d) := by nlinarith
    unfold roundHalfEven
    dsimp only
    rw [heq]
    split_ifs <;> omega

theorem roundHalfEven_le {m : Nat} (hd : 0 < den) (h : num ≤ m * den) :
    roundHalfEven num den ≤ m := by
  have hmono := roundHalfEven_mono hd hd (Nat.mul_le_mul_right den h)
  rwa [roundHalfEven_of_dvd hd (Nat.dvd_mul_left den m), Nat.mul_div_cancel m hd] at hmono

theorem le_roundHalfEven {m : Nat} (hd : 0 < den) (h : m * den ≤ num) :
    m ≤ roundHalfEven num den := by
  have hmono := roundHalfEven_mono hd hd (Nat.mul_le_mul_right den h)
  rwa [roundHalfEven_of_dvd hd (Nat.dvd_mul_left den m), Nat.mul_div_cancel m hd] at hmono

/-- What is rounded is off by no more than a half. -/
theorem roundHalfEven_error (hd : 0 < den) (num : Nat) :
    2 * num ≤ 2 * (roundHalfEven num den * den) + den ∧
      2 * (roundHalfEven num den * den) ≤ 2 * num + den := by
  have hn := Nat.div_add_mod' num den
  have hlt := Nat.mod_lt num hd
  unfold roundHalfEven
  dsimp only
  split_ifs with h1 h2
  · omega
  · rw [Nat.add_one_mul (num / den)]
    omega
  · obtain hz | ho := Nat.mod_two_eq_zero_or_one (num / den)
    · rw [hz, Nat.add_zero]
      omega
    · rw [ho, Nat.add_one_mul (num / den)]
      omega

end RoundHalfEven

namespace Binary64

variable {m m' k sig num den : Nat}

section Units

/-- A significand within its binade. The greatest one is the least of the next binade. -/
theorem units_add (hs : sig ≤ 2 ^ 53) (hk : 0 < k → 2 ^ 52 ≤ sig) :
    units (k * binadeSize + sig) = sig * 2 ^ k := by
  by_cases hsmall : k * binadeSize + sig < 2 * binadeSize
  · have hk0 : k = 0 := by
      by_contra hne
      have hge := hk (Nat.pos_of_ne_zero hne)
      simp only [binadeSize] at hsmall
      omega
    rw [units, if_pos hsmall, hk0]
    omega
  · rw [Nat.not_lt] at hsmall
    rw [units_eq_mul hsmall]
    obtain hlt | heq := Nat.lt_or_eq_of_le hs
    · have hge : 2 ^ 52 ≤ sig := by
        by_cases hk0 : k = 0
        · simp only [hk0, binadeSize] at hsmall
          omega
        · exact hk (Nat.pos_of_ne_zero hk0)
      have hmod : (k * binadeSize + sig) % binadeSize + binadeSize = sig := by
        simp only [binadeSize] at hsmall ⊢
        omega
      have hdiv : (k * binadeSize + sig) / binadeSize - 1 = k := by
        simp only [binadeSize] at hsmall ⊢
        omega
      rw [hmod, hdiv]
    · have hmod : (k * binadeSize + sig) % binadeSize + binadeSize = 2 ^ 52 := by
        simp only [heq, binadeSize]
        omega
      have hdiv : (k * binadeSize + sig) / binadeSize - 1 = k + 1 := by
        simp only [heq, binadeSize]
        omega
      rw [hmod, hdiv, heq, ← Nat.pow_add, ← Nat.pow_add]
      congr 1
      omega

/-- Every magnitude is a significand in its binade. -/
theorem exists_significand (m : Nat) : ∃ k sig, m = k * binadeSize + sig ∧ sig < 2 ^ 53 ∧
    (0 < k → 2 ^ 52 ≤ sig) ∧ units m = sig * 2 ^ k := by
  by_cases hm : m < 2 * binadeSize
  · refine ⟨0, m, by omega, hm, fun h => absurd h (by decide), ?_⟩
    rw [units, if_pos hm, Nat.pow_zero, Nat.mul_one]
  · rw [Nat.not_lt] at hm
    refine ⟨m / binadeSize - 1, m % binadeSize + binadeSize, ?_, ?_, fun _ => ?_,
      units_eq_mul hm⟩
    · simp only [binadeSize] at hm ⊢
      omega
    · simp only [binadeSize] at hm ⊢
      omega
    · simp only [binadeSize]
      omega

theorem units_strictMono : StrictMono units := by
  refine strictMono_nat_of_lt_succ fun m => ?_
  obtain ⟨k, sig, hm, hlt, hge, hu⟩ := exists_significand m
  have hnext : units (k * binadeSize + (sig + 1)) = (sig + 1) * 2 ^ k :=
    units_add hlt fun hk => Nat.le_succ_of_le (hge hk)
  rw [hu, hm, Nat.add_assoc, hnext]
  exact Nat.mul_lt_mul_of_pos_right (Nat.lt_succ_self sig) (Nat.two_pow_pos k)

end Units

section Nearest

/-- The binade of a number of units. -/
def binadeOf (num den : Nat) : Nat := (num / den).log2 - 52

/-- The magnitude nearest to a number of units. -/
def nearestUnits (num den : Nat) : Nat :=
  min (binadeOf num den * binadeSize + roundHalfEven num (den * 2 ^ binadeOf num den)) infinity

theorem nearest_eq (num den : Nat) : nearest num den = nearestUnits (num <<< unitPlaces) den := by
  rw [nearest, nearestUnits, ← Nat.shiftLeft_eq]
  rfl

theorem nearestUnits_le (num den : Nat) : nearestUnits num den ≤ infinity := Nat.min_le_right _ _

theorem log2_mono {a b : Nat} (h : a ≤ b) : a.log2 ≤ b.log2 := by
  by_cases ha : a = 0
  · simp [ha]
  · exact (Nat.le_log2 (by omega)).2 (Nat.le_trans (Nat.log2_self_le ha) h)

theorem binadeOf_mono {a b c d : Nat} (hb : 0 < b) (hd : 0 < d) (h : a * d ≤ c * b) :
    binadeOf a b ≤ binadeOf c d :=
  Nat.sub_le_sub_right (log2_mono (div_le_div hb hd h)) 52

/-- A number of units has no more than 53 bits in its binade, and no fewer from the second
binade on. -/
theorem binadeOf_bounds (hd : 0 < den) (num : Nat) :
    num ≤ 2 ^ 53 * (den * 2 ^ binadeOf num den) ∧
      (0 < binadeOf num den → 2 ^ 52 * (den * 2 ^ binadeOf num den) ≤ num) := by
  have hscale (bits : Nat) : 2 ^ bits * (den * 2 ^ binadeOf num den) =
      2 ^ (bits + binadeOf num den) * den := by
    rw [Nat.pow_add]
    ring
  rw [hscale, hscale]
  constructor
  · have hlt : num / den < 2 ^ (53 + binadeOf num den) := by
      by_cases hq : num / den = 0
      · rw [hq]
        exact Nat.two_pow_pos _
      · refine (Nat.log2_lt hq).1 ?_
        rw [binadeOf]
        omega
    exact Nat.le_of_lt ((Nat.div_lt_iff_lt_mul hd).1 hlt)
  · intro hk
    rw [binadeOf] at hk ⊢
    have hq : num / den ≠ 0 := by
      intro hq
      rw [hq] at hk
      exact absurd hk (by decide)
    refine (Nat.le_div_iff_mul_le hd).1 ((Nat.le_log2 hq).1 ?_)
    omega

theorem significand_bounds (hd : 0 < den) (num : Nat) :
    let sig := roundHalfEven num (den * 2 ^ binadeOf num den)
    sig ≤ 2 ^ 53 ∧ (0 < binadeOf num den → 2 ^ 52 ≤ sig) := by
  intro sig
  have hpos : 0 < den * 2 ^ binadeOf num den := Nat.mul_pos hd (Nat.two_pow_pos _)
  obtain ⟨hle, hge⟩ := binadeOf_bounds hd num
  exact ⟨roundHalfEven_le hpos hle, fun hk => le_roundHalfEven hpos (hge hk)⟩

theorem units_significand (hd : 0 < den) (num : Nat) :
    units (binadeOf num den * binadeSize + roundHalfEven num (den * 2 ^ binadeOf num den)) =
      roundHalfEven num (den * 2 ^ binadeOf num den) * 2 ^ binadeOf num den := by
  obtain ⟨hle, hge⟩ := significand_bounds hd num
  exact units_add hle hge

/-- A greater number of units is not rounded to a smaller magnitude. -/
theorem nearestUnits_mono {a b c d : Nat} (hb : 0 < b) (hd : 0 < d) (h : a * d ≤ c * b) :
    nearestUnits a b ≤ nearestUnits c d := by
  have hbinade := binadeOf_mono hb hd h
  unfold nearestUnits
  refine min_le_min_right infinity ?_
  obtain heq | hlt := Nat.eq_or_lt_of_le hbinade
  · rw [heq]
    refine Nat.add_le_add_left (roundHalfEven_mono (Nat.mul_pos hb (Nat.two_pow_pos _))
      (Nat.mul_pos hd (Nat.two_pow_pos _)) ?_) _
    calc a * (d * 2 ^ binadeOf c d) = a * d * 2 ^ binadeOf c d := (Nat.mul_assoc ..).symm
      _ ≤ c * b * 2 ^ binadeOf c d := Nat.mul_le_mul_right _ h
      _ = c * (b * 2 ^ binadeOf c d) := Nat.mul_assoc ..
  · -- the last of a binade stands before the second one of any further binade
    obtain ⟨hle, -⟩ := significand_bounds hb a
    obtain ⟨-, hge⟩ := significand_bounds hd c
    have hsecond := hge (by omega)
    have hstep : (binadeOf a b + 1) * binadeSize ≤ binadeOf c d * binadeSize :=
      Nat.mul_le_mul_right _ hlt
    simp only [binadeSize] at hstep ⊢
    omega

/-- A magnitude is the nearest one to its own units. -/
theorem nearestUnits_units (hd : 0 < den) (m : Nat) :
    nearestUnits (units m * den) den = min m infinity := by
  obtain ⟨k, hlog, hdvd, hsum⟩ := binade_units m
  have hbinade : binadeOf (units m * den) den = k := by
    rw [binadeOf, Nat.mul_div_cancel _ hd, hlog]
  have hround : roundHalfEven (units m * den) (den * 2 ^ k) = units m / 2 ^ k := by
    rw [Nat.mul_comm den, roundHalfEven_mul_right hd,
      roundHalfEven_of_dvd (Nat.two_pow_pos k) hdvd]
  rw [nearestUnits, hbinade, hround, hsum]

theorem nearestUnits_le_of_le (hd : 0 < den) (hm : m ≤ infinity) (h : num ≤ units m * den) :
    nearestUnits num den ≤ m := by
  have hmono := nearestUnits_mono hd hd (Nat.mul_le_mul_right den h)
  rwa [nearestUnits_units hd, min_eq_left hm] at hmono

theorem le_nearestUnits_of_le (hd : 0 < den) (hm : m ≤ infinity) (h : units m * den ≤ num) :
    m ≤ nearestUnits num den := by
  have hmono := nearestUnits_mono hd hd (Nat.mul_le_mul_right den h)
  rwa [nearestUnits_units hd, min_eq_left hm] at hmono

/-- What the nearest magnitude is off by, if it is finite: half a unit of its binade. -/
theorem nearestUnits_error (hd : 0 < den) (h : nearestUnits num den < infinity) :
    ∃ k, (k = 0 ∨ 2 ^ 52 * (den * 2 ^ k) ≤ num) ∧
      2 * num ≤ 2 * (units (nearestUnits num den) * den) + den * 2 ^ k ∧
      2 * (units (nearestUnits num den) * den) ≤ 2 * num + den * 2 ^ k := by
  have hpos : 0 < den * 2 ^ binadeOf num den := Nat.mul_pos hd (Nat.two_pow_pos _)
  have hfinite : nearestUnits num den = binadeOf num den * binadeSize +
      roundHalfEven num (den * 2 ^ binadeOf num den) := by
    rw [nearestUnits] at h ⊢
    omega
  have hunits : units (nearestUnits num den) * den =
      roundHalfEven num (den * 2 ^ binadeOf num den) * (den * 2 ^ binadeOf num den) := by
    rw [hfinite, units_significand hd]
    ring
  refine ⟨binadeOf num den, ?_, ?_⟩
  · obtain hz | hpos := Nat.eq_zero_or_pos (binadeOf num den)
    · exact .inl hz
    · exact .inr ((binadeOf_bounds hd num).2 hpos)
  · rw [hunits]
    exact roundHalfEven_error hpos num

/-- What the nearest magnitude is too large by, with the unit of the least binade apart. -/
theorem units_nearestUnits_mul_le (hd : 0 < den) (h : nearestUnits num den < infinity) :
    2 ^ 53 * (units (nearestUnits num den) * den) ≤ (2 ^ 53 + 1) * num + 2 ^ 52 * den := by
  obtain ⟨k, rfl | hk, -, hle⟩ := nearestUnits_error hd h
  · omega
  · omega

/-- Units are whole already, so that in the least binade they are not rounded. -/
theorem units_nearestUnits_le (h : nearestUnits num 1 < infinity) :
    2 ^ 53 * units (nearestUnits num 1) ≤ (2 ^ 53 + 1) * num := by
  obtain ⟨k, rfl | hk, -, hle⟩ := nearestUnits_error Nat.one_pos h
  · omega
  · omega

/-- A number of units that has no more than 53 bits in its binade is not rounded. -/
theorem units_nearestUnits_of_dvd (h : nearestUnits num 1 < infinity)
    (hdvd : 2 ^ binadeOf num 1 ∣ num) : units (nearestUnits num 1) = num := by
  have hfinite : nearestUnits num 1 = binadeOf num 1 * binadeSize +
      roundHalfEven num (1 * 2 ^ binadeOf num 1) := by
    rw [nearestUnits] at h ⊢
    omega
  rw [hfinite, units_significand Nat.one_pos, Nat.one_mul,
    roundHalfEven_of_dvd (Nat.two_pow_pos _) hdvd, Nat.div_mul_cancel hdvd]

theorem nearestUnits_pos {n : Nat} (h : 0 < n) : 0 < nearestUnits n 1 := by
  have hone : units 1 = 1 := by decide
  exact le_nearestUnits_of_le Nat.one_pos (by decide) (by rwa [hone])

/-- A significand of 53 bits in a binade is a magnitude, and it is not rounded. -/
theorem units_nearestUnits_of_significand {sig k : Nat} (hsig : sig < 2 ^ 53) (hk : k ≤ 2045) :
    nearestUnits (sig * 2 ^ k) 1 < infinity ∧
      units (nearestUnits (sig * 2 ^ k) 1) = sig * 2 ^ k := by
  have hlargest : units (k * binadeSize + (2 ^ 53 - 1)) = (2 ^ 53 - 1) * 2 ^ k :=
    units_add (by decide) fun _ => by decide
  have hle : sig * 2 ^ k ≤ units (k * binadeSize + (2 ^ 53 - 1)) * 1 := by
    rw [hlargest, Nat.mul_one]
    exact Nat.mul_le_mul_right _ (Nat.le_pred_of_lt hsig)
  have hplace : k * binadeSize + (2 ^ 53 - 1) < infinity := by
    simp only [binadeSize, infinity]
    omega
  have hlt : nearestUnits (sig * 2 ^ k) 1 < infinity :=
    Nat.lt_of_le_of_lt (nearestUnits_le_of_le Nat.one_pos (Nat.le_of_lt hplace) hle) hplace
  refine ⟨hlt, units_nearestUnits_of_dvd hlt ?_⟩
  obtain rfl | hpos := Nat.eq_zero_or_pos sig
  · rw [Nat.zero_mul]
    exact Nat.dvd_zero _
  · have hlog := (Nat.log2_lt (Nat.ne_of_gt hpos)).2 hsig
    rw [binadeOf, Nat.div_one, log2_mul_two_pow hpos]
    exact Nat.dvd_mul_left_of_dvd (Nat.pow_dvd_pow 2 (by omega)) sig

end Nearest

end Binary64

end Reckon
