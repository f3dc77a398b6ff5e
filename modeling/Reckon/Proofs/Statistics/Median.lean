import Mathlib.Data.List.GetD
import Mathlib.Data.List.Sort
import Mathlib.Tactic.Linarith
import Reckon.Proofs.Scalar
import Reckon.Statistics.Summary

/-!
The median as a value in the middle. Values have ranks, told by counting what is smaller and what
is no greater; what stands at a place of the sorted sequence has the rank of the place, and the
order of the given sequence is of no account. With exact arithmetic, half of the values lie on
either side of the median. How binary64 numbers are sorted, and the error of their midpoint, are not
described here.
-/

namespace Reckon

@[simp] theorem Scalar.ordered_rat (x y : ℚ) : Scalar.ordered x y = true ↔ x ≤ y :=
  decide_eq_true_iff

namespace Statistics

section Sorted

variable {xs ys : List ℚ}

theorem sorted_perm (xs : List ℚ) : (sorted xs).Perm xs := List.mergeSort_perm xs _

theorem length_sorted (xs : List ℚ) : (sorted xs).length = xs.length := List.length_mergeSort xs

theorem median_of_ne_nil (h : xs ≠ []) : median xs = .ok ⟨middle (sorted xs), xs.length⟩ := by
  have hvalues : requireValues "median" xs = .ok () := if_neg (by simpa using h)
  rw [median, hvalues]
  rfl

theorem pairwise_sorted (xs : List ℚ) : (sorted xs).Pairwise (· ≤ ·) := by
  have htrans (x y z : ℚ) (hxy : Scalar.ordered x y) (hyz : Scalar.ordered y z) :
      Scalar.ordered x z := by
    rw [Scalar.ordered_rat] at hxy hyz ⊢
    exact hxy.trans hyz
  have htotal (x y : ℚ) : Scalar.ordered x y || Scalar.ordered y x := by
    rw [Bool.or_eq_true, Scalar.ordered_rat, Scalar.ordered_rat]
    exact le_total x y
  exact (List.pairwise_mergeSort htrans htotal xs).imp (Scalar.ordered_rat _ _).1

theorem sorted_eq_of_perm (h : ys.Perm xs) : sorted ys = sorted xs :=
  List.Perm.eq_of_pairwise (fun _ _ _ _ => le_antisymm) (pairwise_sorted ys)
    (pairwise_sorted xs) ((sorted_perm ys).trans (h.trans (sorted_perm xs).symm))

theorem median_eq_of_perm (h : ys.Perm xs) : median ys = median xs := by
  by_cases hne : xs = []
  · rw [hne] at h ⊢
    rw [h.eq_nil]
  · have hne' : ys ≠ [] := fun hnil => hne (hnil ▸ h).nil_eq.symm
    rw [median_of_ne_nil hne, median_of_ne_nil hne', sorted_eq_of_perm h, h.length_eq]

end Sorted

section Ranks

variable {xs ys : List ℚ} {a b x : ℚ} {k l : Nat}

/-- The value stands at place `k`, counted from one, once all are put in order: fewer than `k` are
smaller, and `k` or more are no greater. -/
structure HasRank (xs : List ℚ) (k : Nat) (a : ℚ) : Prop where
  mem : a ∈ xs
  smaller : xs.countP (· < a) < k
  no_greater : k ≤ xs.countP (· ≤ a)

namespace HasRank

theorem of_perm (hp : xs.Perm ys) (h : HasRank xs k a) : HasRank ys k a := by
  obtain ⟨hmem, hsmaller, hnoGreater⟩ := h
  rw [hp.countP_eq] at hsmaller hnoGreater
  exact ⟨hp.mem_iff.1 hmem, hsmaller, hnoGreater⟩

/-- A greater rank is that of no smaller value. -/
theorem le (ha : HasRank xs k a) (hb : HasRank xs l b) (hkl : k ≤ l) : a ≤ b := by
  by_contra! hlt
  have hle : xs.countP (· ≤ b) ≤ xs.countP (· < a) :=
    List.countP_mono_left fun x _ hx => by
      rw [decide_eq_true_eq] at hx ⊢
      exact hx.trans_lt hlt
  exact absurd (hb.no_greater.trans hle) (by have := ha.smaller; omega)

theorem unique (ha : HasRank xs k a) (hb : HasRank xs k b) : a = b :=
  le_antisymm (ha.le hb le_rfl) (hb.le ha le_rfl)

theorem le_countP_ge (h : HasRank xs k a) : xs.length < xs.countP (a ≤ ·) + k := by
  have hsplit := List.length_eq_countP_add_countP (· < a) (l := xs)
  have hrest : xs.countP (fun x => decide ¬(decide (x < a) = true)) = xs.countP (a ≤ ·) := by
    congr 1
    funext x
    simp
  have hsmaller := h.smaller
  omega

end HasRank

theorem hasRank_of_split {before after : List ℚ}
    (h : (before ++ a :: after).Pairwise (· ≤ ·)) :
    HasRank (before ++ a :: after) (before.length + 1) a := by
  obtain ⟨-, hrest, hbefore⟩ := List.pairwise_append.1 h
  obtain ⟨hafter, -⟩ := List.pairwise_cons.1 hrest
  have hsmaller : (a :: after).countP (· < a) = 0 := by
    rw [List.countP_eq_zero, List.forall_mem_cons]
    exact ⟨by simp, fun x hx => by simpa using hafter x hx⟩
  have hnoGreater : before.countP (· ≤ a) = before.length := by
    rw [List.countP_eq_length]
    exact fun x hx => by simpa using hbefore x hx a List.mem_cons_self
  refine ⟨by simp, ?_, ?_⟩
  · rw [List.countP_append, hsmaller, Nat.add_zero]
    exact Nat.lt_succ_of_le List.countP_le_length
  · rw [List.countP_append, hnoGreater, List.countP_cons_of_pos (by simp)]
    omega

/-- A place of a sorted sequence, counted from one, is the rank of what stands there. -/
theorem hasRank_getElem (h : xs.Pairwise (· ≤ ·)) {i : Nat} (hi : i < xs.length) :
    HasRank xs (i + 1) xs[i] := by
  have hsplit : xs.take i ++ xs[i] :: xs.drop (i + 1) = xs := by
    rw [List.getElem_cons_drop, List.take_append_drop]
  have hrank := hasRank_of_split (hsplit.symm ▸ h)
  rwa [hsplit, List.length_take_of_le hi.le] at hrank

end Ranks

section Middle

variable {xs : List ℚ} {a b m : ℚ}

/-- Values stand at their ranks once they are sorted. -/
theorem hasRank_sorted (xs : List ℚ) {i : Nat} (hi : i < xs.length) :
    HasRank xs (i + 1) ((sorted xs).getD i Scalar.zero) := by
  have hi' : i < (sorted xs).length := (length_sorted xs).symm ▸ hi
  rw [List.getD_eq_getElem _ _ hi']
  exact (hasRank_getElem (pairwise_sorted xs) hi').of_perm (sorted_perm xs)

/-- The middle lies halfway between two ranks, which are one if the length is odd. -/
theorem exists_ranks_of_middle (h : xs ≠ []) :
    ∃ a b, HasRank xs ((xs.length + 1) / 2) a ∧ HasRank xs (xs.length / 2 + 1) b ∧
      middle (sorted xs) = (a + b) / 2 := by
  have hpos := List.length_pos_iff.2 h
  have hupper := hasRank_sorted xs (i := xs.length / 2) (by omega)
  unfold middle
  rw [length_sorted]
  by_cases hodd : xs.length % 2 = 1
  · have hrank : (xs.length + 1) / 2 = xs.length / 2 + 1 := by omega
    rw [if_pos hodd, hrank]
    exact ⟨_, _, hupper, hupper, (add_self_div_two _).symm⟩
  · have hlower := hasRank_sorted xs (i := xs.length / 2 - 1) (by omega)
    have hrank : (xs.length + 1) / 2 = xs.length / 2 - 1 + 1 := by omega
    rw [if_neg hodd, hrank]
    exact ⟨_, _, hlower, hupper, by rw [Scalar.ofNat_rat, Nat.cast_ofNat]⟩

/-- Halfway between the two middle ranks, there are as many values on either side. -/
theorem half_on_either_side (ha : HasRank xs ((xs.length + 1) / 2) a)
    (hb : HasRank xs (xs.length / 2 + 1) b) (hm : m = (a + b) / 2) :
    xs.length ≤ 2 * xs.countP (· ≤ m) ∧ xs.length ≤ 2 * xs.countP (m ≤ ·) := by
  have hab : a ≤ b := ha.le hb (by omega)
  have ham : a ≤ m := by linarith
  have hmb : m ≤ b := by linarith
  have hbelow : xs.countP (· ≤ a) ≤ xs.countP (· ≤ m) :=
    List.countP_mono_left fun x _ hx => by simpa using (of_decide_eq_true hx).trans ham
  have habove : xs.countP (b ≤ ·) ≤ xs.countP (m ≤ ·) :=
    List.countP_mono_left fun x _ hx => by simpa using hmb.trans (of_decide_eq_true hx)
  have hfirst := ha.no_greater
  have hlast := hb.le_countP_ge
  omega

end Middle

/-- With exact arithmetic, the median of a sequence that is not empty has at least half of the
values on either side of it, and lies within whatever bounds them all. For an odd length it is
the value whose rank is in the middle, for an even one it lies halfway between the two values
whose ranks are. The order of the values is of no account. -/
theorem median_middle (xs : List ℚ) (hne : xs ≠ []) :
    ∃ m, median xs = .ok ⟨m, xs.length⟩ ∧
      xs.length ≤ 2 * xs.countP (· ≤ m) ∧ xs.length ≤ 2 * xs.countP (m ≤ ·) ∧
      (∀ low high, (∀ x ∈ xs, low ≤ x ∧ x ≤ high) → low ≤ m ∧ m ≤ high) ∧
      (xs.length % 2 = 1 → m ∈ xs ∧ HasRank xs ((xs.length + 1) / 2) m) ∧
      (xs.length % 2 = 0 → ∃ a b, HasRank xs (xs.length / 2) a ∧
        HasRank xs (xs.length / 2 + 1) b ∧ m = (a + b) / 2) ∧
      ∀ ys : List ℚ, ys.Perm xs → median ys = median xs := by
  obtain ⟨a, b, ha, hb, hm⟩ := exists_ranks_of_middle hne
  obtain ⟨hbelow, habove⟩ := half_on_either_side ha hb hm
  refine ⟨_, median_of_ne_nil hne, hbelow, habove, fun low high hbounds => ?_, fun hodd => ?_,
    fun heven => ?_, fun ys => median_eq_of_perm⟩
  · obtain ⟨hlow, hhigh⟩ := hbounds a ha.mem
    obtain ⟨hlow', hhigh'⟩ := hbounds b hb.mem
    rw [hm]
    constructor <;> linarith
  · have hranks : xs.length / 2 + 1 = (xs.length + 1) / 2 := by omega
    obtain rfl : a = b := ha.unique (hranks ▸ hb)
    have hself : middle (sorted xs) = a := by rw [hm, add_self_div_two]
    rw [hself]
    exact ⟨ha.mem, ha⟩
  · have hranks : (xs.length + 1) / 2 = xs.length / 2 := by omega
    exact ⟨a, b, hranks ▸ ha, hb, hm⟩

theorem median_middle_repeated :
    ([9, 1, 5, 1] : List ℚ) ≠ [] ∧ ∃ m, median [9, 1, 5, 1] = .ok ⟨m, 4⟩ ∧
      (∃ a b, HasRank [9, 1, 5, 1] 2 a ∧ HasRank [9, 1, 5, 1] 3 b ∧ m = (a + b) / 2) ∧
      median [1, 5, 1, 9] = (median [9, 1, 5, 1] : Except Failure (Measured ℚ)) := by
  have hne : ([9, 1, 5, 1] : List ℚ) ≠ [] := by simp
  obtain ⟨m, hm, -, -, -, -, heven, hperm⟩ := median_middle [9, 1, 5, 1] hne
  exact ⟨hne, m, hm, heven rfl, hperm [1, 5, 1, 9] (by decide)⟩

end Statistics
end Reckon
