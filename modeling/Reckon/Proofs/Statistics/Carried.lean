import Reckon.Proofs.Binary64.Special
import Reckon.Statistics.MovingAverage

/-!
Moving averages of binary64 numbers. One sum is carried from window to window, so that an
average is a matter of all values up to the end of its window. What has left the window leaves
its rounding in the sum, and a NaN if it was not finite; only values that are added exactly are
taken out without trace.
-/

namespace Reckon.Statistics
open Binary64

variable {xs ys : List Binary64} {width i k bound : Nat} {y : Binary64}

/-- An average of a width, by its number. -/
def IsAverage (xs : List Binary64) (width i : Nat) (y : Binary64) : Prop :=
  ∃ averages, movingAverage xs width = .ok averages ∧ averages.value[i]? = some y

def windowAt (width : Nat) (xs : List Binary64) (i : Nat) : List Binary64 :=
  (xs.drop i).take width

/-- Whatever stands outside of the window, the average is the same, or no number at all. -/
def DependsOnWindow (n width i : Nat) : Prop :=
  ∀ xs ys : List Binary64, xs.length = n → ys.length = n →
    windowAt width xs i = windowAt width ys i →
    ∃ y z, IsAverage xs width i y ∧ IsAverage ys width i z ∧ (y = z ∨ y.isNaN ∧ z.isNaN)

section Carried

/-- The sum, changed by what enters and what leaves. -/
def change (sum : Binary64) (step : Binary64 × Binary64) : Binary64 := sum + (step.1 - step.2)

/-- The sum that has been carried to a window. -/
def sumAt (width : Nat) (xs : List Binary64) (i : Nat) : Binary64 :=
  (((xs.drop width).zip xs).take i).foldl change (Scalar.sum (xs.take width))

theorem getElem?_slide (sum : Binary64) {steps : List (Binary64 × Binary64)}
    (h : i ≤ steps.length) :
    (sum :: slide sum steps)[i]? = some ((steps.take i).foldl change sum) := by
  induction steps generalizing i sum with
  | nil =>
      rw [Nat.le_zero.1 h]
      rfl
  | cons step steps ih =>
      cases i with
      | zero => rfl
      | succ i => exact ih (change sum step) (Nat.le_of_succ_le_succ h)

theorem isAverage_iff (hw : 1 ≤ width) (hi : i + width ≤ xs.length) :
    IsAverage xs width i y ↔ sumAt width xs i / .ofNat width = y := by
  have hvalues : requireValues "moving_average" xs = .ok () := by
    cases xs with
    | nil => exact absurd hi (by simp only [List.length_nil]; omega)
    | cons => rfl
  have hsteps : i ≤ ((xs.drop width).zip xs).length := by
    rw [List.length_zip, List.length_drop]
    omega
  have haverage : movingAverage xs width =
      .ok ⟨(windowSums width xs).map (· / Binary64.ofNat width), xs.length⟩ := by
    rw [movingAverage, hvalues]
    exact if_neg (by omega)
  have hentry : ((windowSums width xs).map (· / Binary64.ofNat width))[i]? =
      some (sumAt width xs i / .ofNat width) := by
    rw [List.getElem?_map, windowSums, getElem?_slide _ hsteps]
    rfl
  rw [IsAverage, haverage]
  constructor
  · rintro ⟨_, ⟨⟩, hy⟩
    exact Option.some.inj (hentry.symm.trans hy)
  · rintro rfl
    exact ⟨_, rfl, hentry⟩

theorem sumAt_zero (width : Nat) (xs : List Binary64) :
    sumAt width xs 0 = (xs.take width).foldl (· + ·) (-0) := rfl

theorem sumAt_succ (h : i + width < xs.length) :
    sumAt width xs (i + 1) = sumAt width xs i + (xs[i + width] - xs[i]) := by
  have hlength : i < ((xs.drop width).zip xs).length := by
    rw [List.length_zip, List.length_drop]
    omega
  rw [sumAt, List.take_succ_eq_append_getElem hlength, List.foldl_concat, List.getElem_zip,
    List.getElem_drop]
  simp only [change, Nat.add_comm width]
  rfl

/-- What is carried to a window has been taken from the values up to its end. -/
theorem sumAt_congr (h : xs.take (i + width) = ys.take (i + width)) :
    sumAt width xs i = sumAt width ys i := by
  have hsteps (zs : List Binary64) : ((zs.drop width).zip zs).take i =
      ((zs.take (i + width)).drop width).zip ((zs.take (i + width)).take i) := by
    rw [List.zip, List.take_zipWith, List.take_drop, Nat.add_comm width, List.take_take,
      min_eq_left (Nat.le_add_right ..)]
  have hfirst (zs : List Binary64) : zs.take width = (zs.take (i + width)).take width := by
    rw [List.take_take, min_eq_left (Nat.le_add_left ..)]
  rw [sumAt, sumAt, hsteps xs, hsteps ys, hfirst xs, hfirst ys, h]

end Carried

section Lost

theorem add_eq_of_not_isFinite {sum x : Binary64} (h : ¬(sum + x).isNaN) :
    (¬sum.isFinite → sum + x = sum) ∧ (¬x.isFinite → sum + x = x) :=
  ⟨fun hsum => (add_of_not_isFinite hsum x).resolve_right h,
    fun hx => (add_right_of_not_isFinite sum hx).resolve_right h⟩

/-- A sum that is a number is what stands in it and is not finite. -/
theorem sum_eq_of_not_isFinite (start : Binary64) (h : ¬(xs.foldl (· + ·) start).isNaN) :
    ∀ x ∈ xs, ¬x.isFinite → x = xs.foldl (· + ·) start := by
  -- from the end, where the term is that was added last
  induction xs using List.reverseRecOn with
  | nil => nofun
  | append_singleton xs last ih =>
      rw [List.foldl_concat] at h ⊢
      obtain ⟨hsum, hlast⟩ := add_eq_of_not_isFinite h
      intro x hx hfinite
      obtain hx | hx := List.mem_append.1 hx
      · have hx := ih (fun hnan => h (isNaN_add (.inl hnan))) x hx hfinite
        rw [hsum (hx ▸ hfinite), ← hx]
      · rw [List.mem_singleton.1 hx] at hfinite ⊢
        exact (hlast hfinite).symm

/-- While the sum is a number, nothing that has left was not finite, and the sum is what stands
in the window and is not finite. -/
theorem sumAt_eq_of_not_isFinite (hw : 1 ≤ width) (hi : i + width ≤ xs.length)
    (h : ¬(sumAt width xs i).isNaN) :
    ∀ p, (hp : p < i + width) → ¬(xs[p].isFinite) → i ≤ p ∧ xs[p] = sumAt width xs i := by
  induction i with
  | zero =>
      intro p hp hfinite
      rw [sumAt_zero] at h ⊢
      refine ⟨Nat.zero_le p, sum_eq_of_not_isFinite _ h _ ?_ hfinite⟩
      exact List.mem_take_iff_getElem.2 ⟨p, by omega, rfl⟩
  | succ i ih =>
      have hlt : i + width < xs.length := by omega
      rw [sumAt_succ hlt] at h ⊢
      have hsum : ¬(sumAt width xs i).isNaN := fun hnan => h (isNaN_add (.inl hnan))
      have hbefore := ih (Nat.le_of_lt hlt) hsum
      -- what leaves was the sum, if it was not finite
      have hleaving : xs[i].isFinite := by
        by_contra hfinite
        have heq := (hbefore i (by omega) hfinite).2
        rw [← heq] at h
        exact h (isNaN_add_sub hfinite _)
      obtain ⟨hstays, henters⟩ := add_eq_of_not_isFinite h
      intro p hp hfinite
      obtain hold | rfl : p < i + width ∨ p = i + width := by omega
      · obtain ⟨hle, heq⟩ := hbefore p hold hfinite
        refine ⟨?_, ?_⟩
        · refine Nat.lt_of_le_of_ne hle ?_
          rintro rfl
          exact hfinite hleaving
        · rw [hstays (heq ▸ hfinite), ← heq]
      · have hsub : xs[i + width] - xs[i] = xs[i + width] := sub_of_isFinite hfinite hleaving
        rw [hsub] at henters ⊢
        exact ⟨by omega, (henters hfinite).symm⟩

/-- Once something has left that was not finite, there is no sum any more. -/
theorem isNaN_sumAt (hw : 1 ≤ width) (hi : i + width ≤ xs.length)
    (h : ∃ x ∈ xs.take i, ¬x.isFinite) : (sumAt width xs i).isNaN := by
  obtain ⟨x, hx, hfinite⟩ := h
  obtain ⟨p, hp, rfl⟩ := List.mem_take_iff_getElem.1 hx
  by_contra hnan
  have hle := (sumAt_eq_of_not_isFinite hw hi hnan p (by omega) hfinite).1
  omega

end Lost

section Exact

/-- A whole multiple of a power of two. -/
def Multiple (k bound : Nat) (v : Int) : Prop := ∃ c : Int, v = c * 2 ^ k ∧ c.natAbs ≤ bound

/-- The values are few enough whole multiples of one power of two. -/
def Whole (k bound : Nat) (xs : List Binary64) : Prop :=
  ∀ x ∈ xs, x.isFinite ∧ Multiple k bound x.exact

/-- The exact sum. -/
def total : List Binary64 → Int
  | [] => 0
  | x :: xs => x.exact + total xs

theorem total_append (xs ys : List Binary64) : total (xs ++ ys) = total xs + total ys := by
  induction xs with
  | nil => exact (Int.zero_add _).symm
  | cons x xs ih => rw [List.cons_append, total, total, ih, Int.add_assoc]

theorem total_concat (xs : List Binary64) (x : Binary64) :
    total (xs ++ [x]) = total xs + x.exact := by
  rw [total_append, total, total, Int.add_zero]

namespace Multiple

variable {a b : Nat} {v w : Int}

theorem mono (h : Multiple k a v) (hab : a ≤ b) : Multiple k b v := by
  obtain ⟨c, hv, hc⟩ := h
  exact ⟨c, hv, Nat.le_trans hc hab⟩

theorem zero (k : Nat) : Multiple k 0 0 := ⟨0, (Int.zero_mul _).symm, Nat.le_refl 0⟩

theorem eq_zero (h : Multiple k 0 v) : v = 0 := by
  obtain ⟨c, rfl, hc⟩ := h
  rw [Int.natAbs_eq_zero.1 (Nat.le_zero.1 hc), Int.zero_mul]

theorem add (hv : Multiple k a v) (hw : Multiple k b w) : Multiple k (a + b) (v + w) := by
  obtain ⟨c, rfl, hc⟩ := hv
  obtain ⟨d, rfl, hd⟩ := hw
  exact ⟨c + d, (Int.add_mul ..).symm, by omega⟩

theorem sub (hv : Multiple k a v) (hw : Multiple k b w) : Multiple k (a + b) (v - w) := by
  obtain ⟨c, rfl, hc⟩ := hv
  obtain ⟨d, rfl, hd⟩ := hw
  exact ⟨c - d, (Int.sub_mul ..).symm, by omega⟩

/-- What has a multiple of at most 53 bits for its exact value is not rounded. -/
theorem exact_of_place {x : Binary64} (hx : x.place = nearestPlace v 1) (hv : Multiple k a v)
    (ha : a < 2 ^ 53) (hk : k ≤ 2045) : x.isFinite ∧ x.exact = v := by
  obtain ⟨c, rfl, hc⟩ := hv
  have hunits := units_nearestUnits_of_significand (Nat.lt_of_le_of_lt hc ha) hk
  have habs : (c * 2 ^ k).natAbs = c.natAbs * 2 ^ k := by
    rw [Int.natAbs_mul, Int.natAbs_pow]
    rfl
  rw [← habs] at hunits
  exact Binary64.exact_of_place hx hunits.1 hunits.2

end Multiple

theorem Whole.windowAt (h : Whole k bound xs) (width i : Nat) :
    Whole k bound (windowAt width xs i) :=
  fun x hx => h x (List.mem_of_mem_drop (List.mem_of_mem_take hx))

theorem Whole.multiple_total (h : Whole k bound xs) :
    Multiple k (xs.length * bound) (total xs) := by
  induction xs with
  | nil => exact (Multiple.zero k).mono (Nat.zero_le _)
  | cons x xs ih =>
      have hx := (h x List.mem_cons_self).2
      have hxs := ih fun y hy => h y (List.mem_cons_of_mem x hy)
      refine (hx.add hxs).mono ?_
      rw [List.length_cons, Nat.add_one_mul, Nat.add_comm]

theorem Whole.exact_sum (h : Whole k bound xs) (hk : k ≤ 2045) (hb : xs.length * bound < 2 ^ 53) :
    (xs.foldl (· + ·) (-0)).isFinite ∧ (xs.foldl (· + ·) (-0)).exact = total xs := by
  induction xs using List.reverseRecOn with
  | nil => decide
  | append_singleton xs x ih =>
      rw [List.length_append, Nat.add_mul] at hb
      have hxs : Whole k bound xs := fun y hy => h y (List.mem_append_left _ hy)
      obtain ⟨hsum, hexact⟩ := ih hxs (by omega)
      have hx := (h x (List.mem_append_right xs List.mem_cons_self)).1
      have htotal := h.multiple_total
      rw [List.length_append, Nat.add_mul] at htotal
      rw [List.foldl_concat]
      refine htotal.exact_of_place ?_ hb hk
      rw [place_add hsum hx, hexact, total_concat]

theorem total_windowAt_succ (hw : 1 ≤ width) (h : i + width < xs.length) :
    total (windowAt width xs (i + 1)) =
      total (windowAt width xs i) + (xs[i + width].exact - xs[i].exact) := by
  obtain ⟨w, rfl⟩ := Nat.exists_eq_add_of_le' hw
  have hnext : w < (xs.drop (i + 1)).length := by
    rw [List.length_drop]
    omega
  have hfirst : windowAt (w + 1) xs i = xs[i] :: (xs.drop (i + 1)).take w := by
    rw [windowAt, List.drop_eq_getElem_cons (by omega), List.take_succ_cons]
  have hlast : windowAt (w + 1) xs (i + 1) = (xs.drop (i + 1)).take w ++ [xs[i + (w + 1)]] := by
    rw [windowAt, List.take_succ_eq_append_getElem hnext, List.getElem_drop]
    simp only [Nat.add_assoc, Nat.add_comm 1]
  rw [hfirst, hlast, total_concat, total]
  omega

/-- Values that are added exactly leave the sum without trace. -/
theorem sumAt_exact (hw : 1 ≤ width) (hi : i + width ≤ xs.length) (h : Whole k bound xs)
    (hk : k ≤ 2045) (hb : (width + 1) * bound < 2 ^ 53) :
    (sumAt width xs i).isFinite ∧ (sumAt width xs i).exact = total (windowAt width xs i) := by
  have hscale := Nat.mul_le_mul_right bound hw
  rw [Nat.add_one_mul] at hb
  have hwindow (j : Nat) : Multiple k (width * bound) (total (windowAt width xs j)) :=
    (h.windowAt width j).multiple_total.mono (Nat.mul_le_mul_right bound (List.length_take_le ..))
  induction i with
  | zero =>
      have hlength : (windowAt width xs 0).length * bound ≤ width * bound :=
        Nat.mul_le_mul_right bound (List.length_take_le ..)
      exact (h.windowAt width 0).exact_sum hk (by omega)
  | succ i ih =>
      have hlt : i + width < xs.length := by omega
      obtain ⟨hsum, hexact⟩ := ih (Nat.le_of_lt hlt)
      obtain ⟨henters, hentering⟩ := h _ (List.getElem_mem hlt)
      obtain ⟨hleaves, hleaving⟩ := h xs[i] (List.getElem_mem _)
      obtain ⟨hdifference, hdiff⟩ := (hentering.sub hleaving).exact_of_place
        (place_sub henters hleaves) (by omega) hk
      have htotal := total_windowAt_succ hw hlt
      rw [sumAt_succ hlt]
      refine (hwindow (i + 1)).exact_of_place ?_ (by omega) hk
      rw [place_add hsum hdifference, hexact, hdiff, htotal]

theorem eq_negZero_of_sum (h : xs.foldl (· + ·) (-0) = -0) : ∀ x ∈ xs, x = -0 := by
  induction xs using List.reverseRecOn with
  | nil => nofun
  | append_singleton xs last ih =>
      rw [List.foldl_concat] at h
      have hsum : xs.foldl (· + ·) (-0) = -0 := by
        by_contra hne
        exact add_ne_negZero hne last h
      have hlast : last = -0 := by
        by_contra hne
        exact add_right_ne_negZero _ hne h
      intro x hx
      obtain hx | hx := List.mem_append.1 hx
      · exact ih hsum x hx
      · exact (List.mem_singleton.1 hx).trans hlast

/-- From the second window on, a sum of zero is positive: what leaves a sum of negative zeros is
a negative zero. -/
theorem sumAt_ne_negZero (hw : 1 ≤ width) (hi : i + 1 + width ≤ xs.length) :
    sumAt width xs (i + 1) ≠ -0 := by
  induction i with
  | zero =>
      have hlt : 0 + width < xs.length := by omega
      rw [sumAt_succ hlt]
      by_cases hfirst : sumAt width xs 0 = -0
      · have hleaving : xs[0] = -0 :=
          eq_negZero_of_sum hfirst _ (List.mem_take_iff_getElem.2 ⟨0, by omega, rfl⟩)
        rw [hleaving]
        exact add_right_ne_negZero _ (sub_negZero_ne _)
      · exact add_ne_negZero hfirst _
  | succ i ih =>
      have hlt : i + 1 + width < xs.length := by omega
      rw [sumAt_succ hlt]
      exact add_ne_negZero (ih (Nat.le_of_lt hlt)) _

theorem sumAt_eq_of_whole (hw : 1 ≤ width) (hx : i + width ≤ xs.length) (hy : i + width ≤ ys.length)
    (hxs : Whole k bound xs) (hys : Whole k bound ys) (hk : k ≤ 2045)
    (hb : (width + 1) * bound < 2 ^ 53) (h : windowAt width xs i = windowAt width ys i) :
    sumAt width xs i = sumAt width ys i := by
  cases i with
  | zero => exact congrArg (List.foldl (· + ·) (-0)) h
  | succ i =>
      refine eq_of_exact (sumAt_ne_negZero hw hx) (sumAt_ne_negZero hw hy) ?_
      rw [(sumAt_exact hw hx hxs hk hb).2, (sumAt_exact hw hy hys hk hb).2, h]

/-- Without rounding an average is the number nearest to the mean of its window. -/
theorem place_average (hw : 1 ≤ width) (hi : i + width ≤ xs.length) (h : Whole k bound xs)
    (hk : k ≤ 2045) (hb : (width + 1) * bound < 2 ^ 53) :
    (sumAt width xs i / ofNat width).place = nearestPlace (total (windowAt width xs i)) width := by
  obtain ⟨hfinite, hexact⟩ := sumAt_exact hw hi h hk hb
  rw [← hexact]
  refine place_div_ofNat hfinite hw ?_
  obtain rfl | hpos := Nat.eq_zero_or_pos bound
  · right
    rw [hexact]
    exact ((h.windowAt width i).multiple_total.mono (Nat.le_of_eq (Nat.mul_zero _))).eq_zero
  · left
    have hle := Nat.le_mul_of_pos_right (width + 1) hpos
    omega

end Exact

theorem isNaN_average (hw : 1 ≤ width) (hi : i + width ≤ xs.length)
    (h : ∃ x ∈ xs.take i, ¬x.isFinite) : (sumAt width xs i / ofNat width).isNaN := by
  have hnan := isNaN_sumAt hw hi h
  have hdiv : sumAt width xs i / ofNat width = sumAt width xs i := if_pos hnan
  rwa [hdiv]

theorem dependsOnWindow_zero {n : Nat} (hw : 1 ≤ width) (h : width ≤ n) :
    DependsOnWindow n width 0 := by
  intro xs ys hxs hys hwindow
  have hsum : sumAt width xs 0 = sumAt width ys 0 :=
    congrArg (List.foldl (· + ·) (-0)) hwindow
  refine ⟨_, _, (isAverage_iff hw (by omega)).2 rfl, (isAverage_iff hw (by omega)).2 rfl, .inl ?_⟩
  rw [hsum]

/-- What has left was no number in one run and zero in the other. -/
theorem not_dependsOnWindow_succ {n : Nat} (hw : 1 ≤ width) (hi : i + 1 + width ≤ n) :
    ¬DependsOnWindow n width (i + 1) := by
  intro hdepends
  obtain ⟨rest, rfl⟩ := Nat.exists_eq_add_of_le (Nat.le_trans (Nat.le_add_right (i + 1) width) hi)
  obtain ⟨y, z, hy, hz, hsame⟩ := hdepends
    (List.replicate (i + 1) invalid ++ List.replicate rest 0) (List.replicate (i + 1 + rest) 0)
    (by simp) (by simp) (by simp [windowAt])
  rw [isAverage_iff hw (by simpa using hi)] at hy hz
  have hnan : y.isNaN := by
    rw [← hy]
    refine isNaN_average hw (by simpa using hi) ⟨invalid, ?_, by decide⟩
    simp
  have hzeros : Whole 0 0 (List.replicate (i + 1 + rest) 0) := by
    intro x hx
    rw [List.eq_of_mem_replicate hx]
    exact ⟨by decide, 0, by decide, Nat.le_refl 0⟩
  have hnumber : ¬z.isNaN := by
    rw [← hz]
    exact not_isNaN_of_place (place_average hw (by simpa using hi) hzeros (Nat.zero_le _)
      (Nat.two_pow_pos 53))
  obtain rfl | ⟨-, hz⟩ := hsame
  · exact hnumber hnan
  · exact hnumber hz

/-- The averages of a width, one for each window. Only the first one is a matter of its own
window alone. What comes after a window has no part in its average, but what has left has: if it
was not finite, the average is no number. Among whole multiples of one power of two, which are
summed within 53 bits, every average is the number nearest to the mean of its window, and nothing
outside of the window has a part in it. -/
theorem average_dependsOnWindow_iff {n : Nat} (hw : 1 ≤ width) (hi : i + width ≤ n) :
    (DependsOnWindow n width i ↔ i = 0) ∧
    ∀ xs : List Binary64, xs.length = n → ∃ y, IsAverage xs width i y ∧
      (∀ ys : List Binary64, ys.length = n → xs.take (i + width) = ys.take (i + width) →
        IsAverage ys width i y) ∧
      ((∃ x ∈ xs.take i, ¬x.isFinite) → y.isNaN) ∧
      ∀ k bound, k ≤ 2045 → (width + 1) * bound < 2 ^ 53 → Whole k bound xs →
        y.place = nearestPlace (total (windowAt width xs i)) width ∧
        ∀ ys : List Binary64, ys.length = n → Whole k bound ys →
          windowAt width xs i = windowAt width ys i → IsAverage ys width i y := by
  constructor
  · cases i with
    | zero => exact iff_of_true (dependsOnWindow_zero hw (by omega)) rfl
    | succ i => exact iff_of_false (not_dependsOnWindow_succ hw hi) (Nat.succ_ne_zero i)
  · rintro xs rfl
    refine ⟨_, (isAverage_iff hw hi).2 rfl, ?_, ?_, ?_⟩
    · intro ys hlength hprefix
      rw [isAverage_iff hw (by omega), sumAt_congr hprefix]
    · exact isNaN_average hw hi
    · intro k bound hk hb hxs
      refine ⟨place_average hw hi hxs hk hb, ?_⟩
      intro ys hlength hys hwindow
      rw [isAverage_iff hw (by omega),
        sumAt_eq_of_whole hw hi (by omega) hxs hys hk hb hwindow]

theorem average_dependsOnWindow_small : ¬DependsOnWindow 3 2 1 ∧
    ∃ y, IsAverage [1, 2, 4] 2 1 y ∧ y.equals 3 ∧ IsAverage [7, 2, 4] 2 1 y := by
  have hwhole (x : Binary64) (c : Int) (h : x.isFinite ∧ x.exact = c * 2 ^ 1074 ∧ c.natAbs ≤ 7) :
      x.isFinite ∧ Multiple 1074 7 x.exact := ⟨h.1, c, h.2⟩
  have hxs : Whole 1074 7 [1, 2, 4] := by
    simp only [Whole, List.forall_mem_cons]
    exact ⟨hwhole 1 1 (by decide +kernel), hwhole 2 2 (by decide +kernel),
      hwhole 4 4 (by decide +kernel), nofun⟩
  have hys : Whole 1074 7 [7, 2, 4] := by
    simp only [Whole, List.forall_mem_cons]
    exact ⟨hwhole 7 7 (by decide +kernel), hwhole 2 2 (by decide +kernel),
      hwhole 4 4 (by decide +kernel), nofun⟩
  obtain ⟨hdepends, hruns⟩ : (DependsOnWindow 3 2 1 ↔ 1 = 0) ∧ _ :=
    average_dependsOnWindow_iff (by decide) (by decide)
  refine ⟨fun h => absurd (hdepends.1 h) (by decide), ?_⟩
  obtain ⟨y, hy, -, -, hexact⟩ := hruns [1, 2, 4] rfl
  obtain ⟨hplace, hsame⟩ := hexact 1074 7 (by decide) (by decide) hxs
  refine ⟨y, hy, ?_, hsame [7, 2, 4] rfl hys (by simp [windowAt])⟩
  rw [equals_iff (not_isNaN_of_place hplace) (by decide), hplace]
  decide +kernel

/-- A great value takes the small ones with it when it leaves. -/
theorem average_after_great_value :
    windowAt 1 [1e100, 1] 1 = windowAt 1 [1, 1] 1 ∧
      (movingAverage ([1e100, 1] : List Binary64) 1).toOption.map (·.value) = some [1e100, 0] ∧
      (movingAverage ([1, 1] : List Binary64) 1).toOption.map (·.value) = some [1, 1] ∧
      ¬DependsOnWindow 2 1 1 := by
  have hgreat : sumAt 1 [1e100, 1] 1 / ofNat 1 = 0 := by decide +kernel
  have hsmall : sumAt 1 [1, 1] 1 / ofNat 1 = 1 := by decide +kernel
  have hwindow : windowAt 1 [1e100, 1] 1 = windowAt 1 [1, 1] 1 := by simp [windowAt]
  refine ⟨hwindow, by decide +kernel, by decide +kernel, ?_⟩
  intro hdepends
  obtain ⟨y, z, hy, hz, hsame⟩ := hdepends [1e100, 1] [1, 1] rfl rfl hwindow
  rw [isAverage_iff (by decide) (by decide), hgreat] at hy
  rw [isAverage_iff (by decide) (by decide), hsmall] at hz
  subst hy hz
  revert hsame
  decide

end Reckon.Statistics
