import Reckon.Proofs.Binary64.Operations
import Reckon.Series

/-!
Where the points of a domain come to lie. The distance between its bounds may be infinite
though neither of them is, and then the first point is no number. If it is finite, the points
ascend from the lower bound; only the rounding of a step of few units can take the last ones
beyond the upper bound.
-/

namespace Reckon.Series
open Binary64

variable {low high : Binary64} {count : Nat}

/-- The distance from one point to the next. -/
def stepOf (low high : Binary64) (count : Nat) : Binary64 :=
  (high - low) / Binary64.ofNat (count - 1)

/-- The points other than the last one. -/
def pointOf (low high : Binary64) (count i : Nat) : Binary64 :=
  low + Binary64.ofNat i * stepOf low high count

/-- The points lie in the domain, from its lower bound to its upper one, in order. -/
structure InDomain (low high : Binary64) (xs : List Binary64) : Prop where
  inside : ∀ x ∈ xs, x.isFinite ∧ low ≤ x ∧ x ≤ high
  first : ∃ x ∈ xs.head?, x.equals low
  last : xs.getLast? = some high
  ascending : xs.Pairwise (· ≤ ·)

/-- What is checked before sampling. -/
structure Checked (low high : Binary64) (count : Nat) : Prop where
  lowFinite : low.isFinite
  highFinite : high.isFinite
  lt : low.exact < high.exact
  two_le : 2 ≤ count
  le : count ≤ 100000

theorem checked_of_checkDomain (h : checkDomain low high count = .ok ()) :
    Checked low high count := by
  unfold checkDomain at h
  split at h
  · cases h
  · rename_i hbounds
    split at h
    · cases h
    · rename_i hcount
      simp only [Bool.or_eq_true, Bool.not_eq_true', decide_eq_true_iff, not_or,
        Bool.not_eq_false, Nat.not_lt] at hbounds hcount
      obtain ⟨⟨hlow, hhigh⟩, hlt⟩ := hbounds
      have hle := le_iff (not_isNaN_of_isFinite hhigh) (not_isNaN_of_isFinite hlow)
      refine ⟨hlow, hhigh, ?_, hcount.1, hcount.2⟩
      rw [exact_lt_exact, ← Int.not_le]
      exact mt hle.2 hlt

theorem abscissae_eq (h : 1 ≤ count) : abscissae low high count =
    (List.range (count - 1)).map (pointOf low high count) ++ [high] := by
  obtain ⟨n, rfl⟩ := Nat.exists_eq_add_of_le' h
  rw [Nat.add_sub_cancel, abscissae, List.range_succ, List.map_append, List.map_singleton,
    Nat.add_sub_cancel, if_pos rfl]
  congr 1
  refine List.map_congr_left ?_
  intro i hi
  exact if_neg (Nat.ne_of_lt (List.mem_range.1 hi))

theorem mem_abscissae (h : 1 ≤ count) {x : Binary64} : x ∈ abscissae low high count ↔
    (∃ i < count - 1, pointOf low high count i = x) ∨ x = high := by
  rw [abscissae_eq h]
  simp

theorem head?_abscissae (h : 2 ≤ count) :
    (abscissae low high count).head? = some (pointOf low high count 0) := by
  obtain ⟨n, hn⟩ : ∃ n, count - 1 = n + 1 := ⟨count - 2, by omega⟩
  rw [abscissae_eq (by omega), hn, List.range_succ_eq_map]
  rfl

section Units

/-- Three roundings take the last point no further than the bound if there are enough units. -/
theorem le_of_rounded {m w d s p : Nat} (hm : m ≤ 100000) (hw : (m + 2) ^ 2 ≤ w)
    (hd : 2 ^ 53 * d ≤ (2 ^ 53 + 1) * w)
    (hs : 2 ^ 53 * (s * (m + 1)) ≤ (2 ^ 53 + 1) * d + 2 ^ 52 * (m + 1))
    (hp : 2 ^ 53 * p ≤ (2 ^ 53 + 1) * (m * s)) : p ≤ w := by
  by_contra hlt
  have hsquare : m * (m + 1) ≤ w := by linarith
  have hshare : m * w ≤ 100000 * w := Nat.mul_le_mul_right w hm
  have hbeyond : m * w + w + m < p * (m + 1) := by
    have hscaled := Nat.mul_le_mul_right (m + 1) (Nat.lt_of_not_le hlt)
    linarith
  have hp' : 2 ^ 53 * (p * (m + 1)) ≤ (2 ^ 53 + 1) * (m * (s * (m + 1))) := by
    have hscaled := Nat.mul_le_mul_right (m + 1) hp
    linarith
  have hs' : 2 ^ 53 * (m * (s * (m + 1))) ≤
      (2 ^ 53 + 1) * (m * d) + 2 ^ 52 * (m * (m + 1)) := by
    have hscaled := Nat.mul_le_mul_left m hs
    linarith
  have hd' : 2 ^ 53 * (m * d) ≤ (2 ^ 53 + 1) * (m * w) := by
    have hscaled := Nat.mul_le_mul_left m hd
    linarith
  omega

/-- The steps before the last point make no more than the distance, or are few units. -/
theorem steps_le {m d s : Nat} (hm : m ≤ 100000)
    (hs : 2 ^ 53 * (s * (m + 1)) ≤ (2 ^ 53 + 1) * d + 2 ^ 52 * (m + 1)) :
    m * s ≤ d ∨ m * s < 2 ^ 53 := by
  by_cases hle : m * s ≤ d
  · exact .inl hle
  · right
    have hsum : s * (m + 1) = m * s + s := by ring
    have hfew : s ≤ 200000 := by
      by_contra hlt
      have hproduct := Nat.mul_le_mul_right s hm
      omega
    calc m * s ≤ 100000 * 200000 := Nat.mul_le_mul hm hfew
      _ < 2 ^ 53 := by decide

end Units

/-- The distance of the bounds and the step, in units: `d` and `s` are what the exact distance
`w` and the share of `d` are rounded to. -/
structure Spread (low high : Binary64) (count w d s : Nat) : Prop
    extends Checked low high count where
  high_eq : high.exact = low.exact + w
  distance : 2 ^ 53 * d ≤ (2 ^ 53 + 1) * w
  step : (stepOf low high count).isFinite ∧ (stepOf low high count).exact = s
  share : 2 ^ 53 * (s * (count - 1)) ≤ (2 ^ 53 + 1) * d + 2 ^ 52 * (count - 1)
  steps : ∀ i < count - 1, nearestUnits (i * s) 1 < infinity

theorem exists_spread (h : Checked low high count) (hfinite : (high - low).isFinite) :
    ∃ w d s, Spread low high count w d s := by
  have hchecked := h
  obtain ⟨hlow, hhigh, hlt, htwo, hmany⟩ := h
  have hn : 0 < count - 1 := by omega
  obtain ⟨w, hw⟩ := Int.eq_ofNat_of_zero_le (Int.le_of_lt (Int.sub_pos_of_lt hlt))
  have hdistance : (high - low).place = nearestUnits w 1 := by
    rw [place_sub hhigh hlow, hw]
    exact nearestPlace_natCast w 1
  have hwlt : nearestUnits w 1 < infinity := by
    rwa [isFinite_iff, hdistance, Int.natAbs_natCast] at hfinite
  obtain ⟨d, hd⟩ : ∃ d, d = units (nearestUnits w 1) := ⟨_, rfl⟩
  obtain ⟨hwhole, hexact⟩ := exact_ofNat (n := count - 1) (by omega)
  have hpositive : 0 < (ofNat (count - 1)).exact := by
    rw [hexact]
    exact Int.natCast_pos.2 (Nat.mul_pos hn (Nat.two_pow_pos _))
  have hstep : (stepOf low high count).place = nearestUnits d (count - 1) := by
    rw [stepOf, place_div hfinite hwhole hpositive, exact_of_place_natCast hdistance, ← hd, hexact,
      Int.natAbs_natCast, ← nearestPlace_natCast]
    refine nearestPlace_congr (Nat.mul_pos hn (Nat.two_pow_pos _)) hn ?_
    push_cast
    ring
  have hdlt : nearestUnits d (count - 1) < infinity := by
    refine Nat.lt_of_le_of_lt (nearestUnits_le_of_le hn (Nat.le_of_lt hwlt) ?_) hwlt
    rw [← hd]
    exact Nat.le_mul_of_pos_right d hn
  have hshare := units_nearestUnits_mul_le hn hdlt
  refine ⟨w, d, units (nearestUnits d (count - 1)), hchecked, by omega,
    hd ▸ units_nearestUnits_le hwlt, ⟨?_, exact_of_place_natCast hstep⟩, hshare, ?_⟩
  · rwa [isFinite_iff, hstep, Int.natAbs_natCast]
  · intro i hi
    obtain ⟨m, hm⟩ : ∃ m, count - 1 = m + 1 := Nat.exists_eq_add_one.2 hn
    rw [hm] at hshare hi ⊢
    have hi' : i * units (nearestUnits d (m + 1)) ≤ m * units (nearestUnits d (m + 1)) :=
      Nat.mul_le_mul_right _ (Nat.le_of_lt_succ hi)
    obtain hle | hfew := steps_le (by omega) hshare
    · refine Nat.lt_of_le_of_lt (nearestUnits_le_of_le Nat.one_pos (Nat.le_of_lt hwlt) ?_) hwlt
      rw [← hd, Nat.mul_one]
      exact Nat.le_trans hi' hle
    · obtain ⟨hlt, -⟩ := units_nearestUnits_of_significand (k := 0)
        (Nat.lt_of_le_of_lt hi' hfew) (Nat.zero_le _)
      rwa [Nat.pow_zero, Nat.mul_one] at hlt

namespace Spread

variable {w d s i j : Nat}

theorem place_steps (h : Spread low high count w d s) (hi : i < count - 1) :
    (ofNat i * stepOf low high count).place = nearestUnits (i * s) 1 := by
  have hcount := h.le
  obtain ⟨hwhole, hexact⟩ := exact_ofNat (n := i) (by omega)
  rw [place_mul hwhole h.step.1, hexact, h.step.2, ← nearestPlace_natCast]
  refine nearestPlace_congr (Nat.two_pow_pos _) Nat.one_pos ?_
  push_cast
  ring

/-- No step before the last point leaves the range of binary64 numbers. -/
theorem isFinite_steps (h : Spread low high count w d s) (hi : i < count - 1) :
    (ofNat i * stepOf low high count).isFinite := by
  rw [isFinite_iff, h.place_steps hi, Int.natAbs_natCast]
  exact h.steps i hi

theorem place_pointOf (h : Spread low high count w d s) (hi : i < count - 1) :
    (pointOf low high count i).place =
      nearestPlace (low.exact + units (nearestUnits (i * s) 1)) 1 := by
  rw [pointOf, place_add h.lowFinite (h.isFinite_steps hi),
    exact_of_place_natCast (h.place_steps hi)]

theorem not_isNaN_pointOf (h : Spread low high count w d s) (hi : i < count - 1) :
    ¬(pointOf low high count i).isNaN :=
  not_isNaN_of_place (h.place_pointOf hi)

theorem pointOf_mono (h : Spread low high count w d s) (hij : i ≤ j) (hj : j < count - 1) :
    (pointOf low high count i).place ≤ (pointOf low high count j).place := by
  rw [h.place_pointOf (Nat.lt_of_le_of_lt hij hj), h.place_pointOf hj]
  have hsteps : nearestUnits (i * s) 1 ≤ nearestUnits (j * s) 1 :=
    nearestUnits_mono Nat.one_pos Nat.one_pos
      (Nat.mul_le_mul_right 1 (Nat.mul_le_mul_right s hij))
  have hunits := units_strictMono.monotone hsteps
  exact nearestPlace_mono Nat.one_pos Nat.one_pos (by omega)

theorem place_pointOf_zero (h : Spread low high count w d s) :
    (pointOf low high count 0).place = low.place := by
  have htwo := h.two_le
  rw [h.place_pointOf (by omega), Nat.zero_mul, nearestUnits_zero, units_zero,
    Int.natCast_zero, Int.add_zero, nearestPlace_exact h.lowFinite]

theorem low_le_pointOf (h : Spread low high count w d s) (hi : i < count - 1) :
    low.place ≤ (pointOf low high count i).place := by
  rw [← h.place_pointOf_zero]
  exact h.pointOf_mono (Nat.zero_le i) hi

/-- With enough units between the bounds, rounding keeps below the upper one. -/
theorem pointOf_le_high (h : Spread low high count w d s) (hw : count ^ 2 ≤ w) :
    (pointOf low high count (count - 2)).place ≤ high.place := by
  obtain ⟨m, rfl⟩ := Nat.exists_eq_add_of_le' h.two_le
  have hcount := h.le
  have hm : m < m + 2 - 1 := by omega
  have hwithin := le_of_rounded (by omega) hw h.distance h.share
    (units_nearestUnits_le (h.steps m hm))
  rw [Nat.add_sub_cancel, h.place_pointOf hm, ← nearestPlace_exact h.highFinite, h.high_eq]
  exact nearestPlace_mono Nat.one_pos Nat.one_pos (by omega)

end Spread

/-- Points lie in the domain if their steps can be made and the last one before the upper bound
is not beyond it. -/
theorem inDomain_of_le (h : Checked low high count) (hfinite : (high - low).isFinite)
    (hlast : pointOf low high count (count - 2) ≤ high) :
    InDomain low high (abscissae low high count) := by
  obtain ⟨w, d, s, hspread⟩ := exists_spread h hfinite
  obtain ⟨hlow, hhigh, hlt, htwo, hcount⟩ := h
  have hlowNaN := not_isNaN_of_isFinite hlow
  have hhighNaN := not_isNaN_of_isFinite hhigh
  have hpoint {i : Nat} (hi : i < count - 1) : ¬(pointOf low high count i).isNaN :=
    hspread.not_isNaN_pointOf hi
  rw [le_iff (hpoint (by omega)) hhighNaN] at hlast
  have hinside {i : Nat} (hi : i < count - 1) :
      low.place ≤ (pointOf low high count i).place ∧
        (pointOf low high count i).place ≤ high.place := by
    refine ⟨hspread.low_le_pointOf hi, Int.le_trans ?_ hlast⟩
    exact hspread.pointOf_mono (by omega) (by omega)
  constructor
  case inside =>
    intro x hx
    rw [isFinite_iff] at hlow hhigh
    obtain ⟨i, hi, rfl⟩ | rfl := (mem_abscissae (by omega)).1 hx
    · obtain ⟨hge, hle⟩ := hinside hi
      rw [isFinite_iff, le_iff hlowNaN (hpoint hi), le_iff (hpoint hi) hhighNaN]
      exact ⟨by omega, hge, hle⟩
    · rw [le_iff hlowNaN hhighNaN, le_iff hhighNaN hhighNaN, ← exact_le_exact]
      exact ⟨isFinite_iff.2 hhigh, Int.le_of_lt hlt, Int.le_refl _⟩
  case first =>
    refine ⟨pointOf low high count 0, head?_abscissae htwo, ?_⟩
    rw [equals_iff (hpoint (by omega)) hlowNaN]
    exact hspread.place_pointOf_zero
  case last =>
    rw [abscissae_eq (by omega), List.getLast?_concat]
  case ascending =>
    rw [abscissae_eq (by omega), List.pairwise_append]
    refine ⟨?_, List.pairwise_singleton _ _, ?_⟩
    · rw [List.pairwise_map]
      refine List.pairwise_lt_range.imp_of_mem ?_
      intro i j hi hj hij
      have hi' := List.mem_range.1 hi
      have hj' := List.mem_range.1 hj
      rw [le_iff (hpoint hi') (hpoint hj')]
      exact hspread.pointOf_mono (Nat.le_of_lt hij) hj'
    · intro x hx y hy
      obtain ⟨i, hi, rfl⟩ := List.mem_map.1 hx
      rw [List.mem_singleton.1 hy, le_iff (hpoint (List.mem_range.1 hi)) hhighNaN]
      exact (hinside (List.mem_range.1 hi)).2

/-- The step is infinite with the distance, and no number of steps makes a number of it. -/
theorem isNaN_pointOf_zero (h : Checked low high count) (hinfinite : ¬(high - low).isFinite) :
    (pointOf low high count 0).isNaN := by
  obtain ⟨-, -, -, htwo, hcount⟩ := h
  obtain ⟨hwhole, -⟩ := exact_ofNat (n := count - 1) (by omega)
  have hstep : ¬(stepOf low high count).isFinite := not_isFinite_div hinfinite hwhole
  exact isNaN_add (.inr (isNaN_mul_of_not_isFinite (by decide) hstep))

/-- Over an accepted domain the points lie in it exactly if the distance of the bounds is finite
and rounding does not take the last point before the upper bound beyond it. If the distance is
finite, then so is every multiple of the step that is added, and bounds that are apart by as many
units as the square of the number of points have all points between them. If it is not, the first
point is no number. -/
theorem abscissae_inDomain_iff (h : checkDomain low high count = .ok ()) :
    (InDomain low high (abscissae low high count) ↔
      (high - low).isFinite ∧ pointOf low high count (count - 2) ≤ high) ∧
    ((high - low).isFinite →
      (∀ i < count - 1, (ofNat i * stepOf low high count).isFinite) ∧
      ((count : Int) ^ 2 ≤ high.exact - low.exact →
        InDomain low high (abscissae low high count))) ∧
    (¬(high - low).isFinite → ∃ x ∈ (abscissae low high count).head?, x.isNaN) := by
  have hchecked := checked_of_checkDomain h
  obtain ⟨hlow, hhigh, -, htwo, hcount⟩ := checked_of_checkDomain h
  have hfirst (hinfinite : ¬(high - low).isFinite) :
      ∃ x ∈ (abscissae low high count).head?, x.isNaN :=
    ⟨_, head?_abscissae htwo, isNaN_pointOf_zero hchecked hinfinite⟩
  refine ⟨⟨?_, ?_⟩, ?_, hfirst⟩
  · intro hdomain
    constructor
    · by_contra hinfinite
      obtain ⟨x, hx, hnan⟩ := hfirst hinfinite
      exact not_isNaN_of_isFinite (hdomain.inside x (List.mem_of_mem_head? hx)).1 hnan
    · have hmem : pointOf low high count (count - 2) ∈ abscissae low high count :=
        (mem_abscissae (by omega)).2 (.inl ⟨count - 2, by omega, rfl⟩)
      exact (hdomain.inside _ hmem).2.2
  · rintro ⟨hfinite, hlast⟩
    exact inDomain_of_le hchecked hfinite hlast
  · intro hfinite
    obtain ⟨w, d, s, hspread⟩ := exists_spread hchecked hfinite
    refine ⟨fun i hi => hspread.isFinite_steps hi, fun hunits => ?_⟩
    refine inDomain_of_le hchecked hfinite ?_
    rw [le_iff (hspread.not_isNaN_pointOf (by omega)) (not_isNaN_of_isFinite hhigh)]
    refine hspread.pointOf_le_high ?_
    have hw := hspread.high_eq
    have hunits' : ((count ^ 2 : Nat) : Int) ≤ w := by
      push_cast
      omega
    exact_mod_cast hunits'

theorem abscissae_inDomain_unit : InDomain (-1) 1 (abscissae (-1) 1 3) := by
  have hchecked : checkDomain (-1) 1 3 = .ok () := by decide +kernel
  have hdistance : ((1 : Binary64) - -1).isFinite := by decide +kernel
  have hunits : ((3 : Nat) : Int) ^ 2 ≤ (1 : Binary64).exact - (-1 : Binary64).exact := by
    decide +kernel
  obtain ⟨-, hfinite, -⟩ := abscissae_inDomain_iff hchecked
  exact (hfinite hdistance).2 hunits

/-- Bounds near the largest numbers are too far apart for a step, and between bounds of a few
units a step of less than one unit is rounded to a whole one. -/
theorem abscissae_not_inDomain :
    (checkDomain (-1.7e308) 1.7e308 2 = .ok () ∧
      ¬InDomain (-1.7e308) 1.7e308 (abscissae (-1.7e308) 1.7e308 2)) ∧
    checkDomain 0 ⟨3⟩ 6 = .ok () ∧
      abscissae 0 ⟨3⟩ 6 = [⟨0⟩, ⟨1⟩, ⟨2⟩, ⟨3⟩, ⟨4⟩, ⟨3⟩] ∧
      ¬InDomain 0 ⟨3⟩ (abscissae 0 ⟨3⟩ 6) := by
  refine ⟨⟨by decide +kernel, ?_⟩, by decide +kernel, by decide +kernel, ?_⟩
  · intro hdomain
    have hfinite := fun x hx => (hdomain.inside x hx).1
    revert hfinite
    decide +kernel
  · intro hdomain
    have hascending := hdomain.ascending
    revert hascending
    decide +kernel

end Reckon.Series
