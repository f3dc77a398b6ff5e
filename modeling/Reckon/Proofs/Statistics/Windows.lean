import Mathlib.Algebra.BigOperators.Group.List.Basic
import Mathlib.Tactic.Ring
import Reckon.Proofs.Failure
import Reckon.Proofs.Scalar
import Reckon.Statistics.MovingAverage

/-!
Moving averages in exact arithmetic: the sum that is carried from window to window is the
sum of the window it has reached. Every window is summed anew in the statement, and only
once in the computation. Over binary64 numbers the two differ by what was rounded on the
way.
-/

namespace Reckon.Statistics

variable {width : Nat} {x : ℚ} {xs : List ℚ}

/-- All runs of neighbouring values of one width, from the first on. -/
def windows (width : Nat) (xs : List ℚ) : List (List ℚ) :=
  (List.range (xs.length - width + 1)).map fun i => (xs.drop i).take width

theorem windows_cons (h : width ≤ xs.length) :
    windows width (x :: xs) = (x :: xs).take width :: windows width xs := by
  have hcount : (x :: xs).length - width + 1 = (xs.length - width + 1) + 1 := by
    rw [List.length_cons]
    omega
  rw [windows, hcount, List.range_succ_eq_map, List.map_cons, List.map_map]
  rfl

theorem windows_length (xs : List ℚ) : windows xs.length xs = [xs] := by
  simp [windows]

/-- The sum moves on by one place: what enters is the last value of the next window, and
what leaves is the first one of this window. -/
theorem windowSums_cons (h : width + 1 ≤ xs.length) :
    windowSums (width + 1) (x :: xs) =
      ((x :: xs).take (width + 1)).sum :: windowSums (width + 1) xs := by
  have hdrop : xs.drop width = xs[width] :: xs.drop (width + 1) := List.drop_eq_getElem_cons h
  have hnext : (x + (xs.take width).sum) + (xs[width] - x) = (xs.take (width + 1)).sum := by
    rw [List.sum_take_succ xs width h]
    ring
  simp only [windowSums, Scalar.sum_rat, List.drop_succ_cons, List.take_succ_cons,
    List.sum_cons, hdrop, List.zip_cons_cons, slide, hnext]

theorem windowSums_length (xs : List ℚ) : windowSums xs.length xs = [xs.sum] := by
  simp [windowSums, slide, Scalar.sum_rat]

theorem windowSums_eq (hpos : 0 < width) (h : width ≤ xs.length) :
    windowSums width xs = (windows width xs).map List.sum := by
  obtain ⟨w, rfl⟩ := Nat.exists_eq_add_one.2 hpos
  induction xs with
  | nil => cases h
  | cons x xs ih =>
      obtain h | h := Nat.lt_or_eq_of_le h
      · have hrest : w + 1 ≤ xs.length := Nat.le_of_lt_succ h
        rw [windowSums_cons hrest, windows_cons hrest, List.map_cons, ih hrest]
      · rw [h, windowSums_length, windows_length, List.map_singleton]

/-- Averages exist for the widths from one to the number of values and for no other. -/
theorem movingAverage_cases (hne : xs ≠ []) (width : Nat) :
    (¬ (1 ≤ width ∧ width ≤ xs.length) ∧
      movingAverage xs width = .error (.of (.argument (.window xs.length width)))) ∨
    (1 ≤ width ∧ width ≤ xs.length) ∧
      movingAverage xs width = .ok ⟨(windows width xs).map (·.sum / width), xs.length⟩ := by
  have hvalues : requireValues "moving_average" xs = .ok () := by
    cases xs with
    | nil => exact absurd rfl hne
    | cons => rfl
  rw [movingAverage, hvalues, ok_bind]
  by_cases h : 1 ≤ width ∧ width ≤ xs.length
  · refine .inr ⟨h, ?_⟩
    rw [if_neg (by omega), windowSums_eq h.1 h.2, List.map_map]
    rfl
  · exact .inl ⟨h, if_pos (by omega)⟩

/-- A moving average of a width is the mean of each window of that width, in order, and
there is one exactly if the width is at least one and at most the number of values. -/
theorem movingAverage_means (xs : List ℚ) (hne : xs ≠ []) (width : Nat) :
    ((∃ averages, movingAverage xs width = .ok averages) ↔ 1 ≤ width ∧ width ≤ xs.length) ∧
    (∀ failure, movingAverage xs width = .error failure → failure.kind = .invalidArgument) ∧
    ∀ averages, movingAverage xs width = .ok averages →
      averages.value.length = xs.length - width + 1 ∧
      ∀ i < xs.length - width + 1,
        averages.value[i]? = some (((xs.drop i).take width).sum / width) := by
  obtain ⟨hwidth, herror⟩ | ⟨hwidth, hok⟩ := movingAverage_cases hne width
  · rw [herror]
    refine ⟨iff_of_false (by simp) hwidth, ?_, ?_⟩
    · rintro _ ⟨⟩
      rfl
    · rintro _ ⟨⟩
  · rw [hok]
    refine ⟨iff_of_true ⟨_, rfl⟩ hwidth, ?_, ?_⟩
    · rintro _ ⟨⟩
    · rintro _ ⟨⟩
      refine ⟨by simp [windows], fun i hi => ?_⟩
      simp [windows, hi]

theorem movingAverage_means_uneven :
    ∃ averages, movingAverage ([1, 4, -2, 10, 7] : List ℚ) 3 = .ok averages ∧
      averages.value.length = 3 ∧ averages.value[2]? = some 5 := by
  obtain ⟨hok, -, hmeans⟩ := movingAverage_means [1, 4, -2, 10, 7] (by decide) 3
  obtain ⟨averages, h⟩ := hok.2 ⟨by decide, by decide⟩
  obtain ⟨hlength, hentry⟩ := hmeans averages h
  refine ⟨averages, h, hlength, (hentry 2 (by decide)).trans ?_⟩
  decide +kernel

end Reckon.Statistics
