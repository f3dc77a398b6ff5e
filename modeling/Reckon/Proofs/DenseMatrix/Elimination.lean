import Mathlib.LinearAlgebra.Matrix.NonsingularInverse
import Mathlib.Tactic.LinearCombination
import Reckon.DenseMatrix.Kernels
import Reckon.Proofs.DenseMatrix.Layout
import Reckon.Proofs.Scalar

/-!
Elimination over the rationals. One step takes a table to a smaller one, its remainder,
and what the steps record is read off these tables: the determinant, and the solution of
a linear system or that there is none. Nothing is said about rounded arithmetic.
-/

namespace Reckon

namespace Elimination

/-- Behind what was seen, the search goes on to an entry that no other one exceeds. -/
theorem largest_spec (xs seen : List ℚ) (best : Nat) (size : ℚ)
    (hbest : seen[best]?.map abs = some size) (hseen : ∀ x ∈ seen, |x| ≤ size) :
    ∃ top, (seen ++ xs)[largest seen.length best size xs]? = some top ∧
      ∀ x ∈ seen ++ xs, |x| ≤ |top| := by
  induction xs generalizing seen best size with
  | nil =>
      obtain ⟨top, htop, rfl⟩ := Option.map_eq_some_iff.1 hbest
      exact ⟨top, by simpa [largest] using htop, by simpa using hseen⟩
  | cons x xs ih =>
      have happend : seen ++ x :: xs = (seen ++ [x]) ++ xs := by simp
      have hlength : seen.length + 1 = (seen ++ [x]).length := by simp
      rw [happend, largest, Scalar.magnitude_rat]
      by_cases hx : size < |x|
      · rw [if_pos ((Scalar.less_rat _ _).2 hx), hlength]
        refine ih (seen ++ [x]) seen.length |x| (by simp) fun y hy => ?_
        obtain hy | hy := List.mem_append.1 hy
        · exact (hseen y hy).trans hx.le
        · rw [List.mem_singleton.1 hy]
      · rw [if_neg (mt (Scalar.less_rat _ _).1 hx), hlength]
        have hlt : best < seen.length := by
          obtain ⟨top, htop, -⟩ := Option.map_eq_some_iff.1 hbest
          exact (List.getElem?_eq_some_iff.1 htop).1
        refine ih (seen ++ [x]) best size (by rwa [List.getElem?_append_left hlt]) fun y hy => ?_
        obtain hy | hy := List.mem_append.1 hy
        · exact hseen y hy
        · rw [List.mem_singleton.1 hy]
          exact not_lt.1 hx

/-- The pivot is found in the column, and no entry of the column exceeds it. -/
theorem pivotIndex_spec {n : Nat} (column : Fin (n + 1) → ℚ) :
    ∃ s : Fin (n + 1), pivotIndex (List.ofFn column) = s ∧ ∀ i, |column i| ≤ |column s| := by
  have hcolumn : List.ofFn column = [column 0] ++ List.ofFn fun i : Fin n => column i.succ := by
    rw [List.ofFn_succ, List.singleton_append]
  obtain ⟨top, htop, hmax⟩ := largest_spec (List.ofFn fun i : Fin n => column i.succ) [column 0] 0
    |column 0| rfl (by simp)
  rw [← hcolumn] at htop hmax
  have hindex : pivotIndex (List.ofFn column) =
      largest 1 0 |column 0| (List.ofFn fun i : Fin n => column i.succ) := by
    rw [List.ofFn_succ, pivotIndex, Scalar.magnitude_rat]
  obtain ⟨hlt, htop⟩ := List.getElem?_eq_some_iff.1 htop
  rw [List.length_ofFn] at hlt
  refine ⟨⟨_, hlt⟩, hindex, fun i => ?_⟩
  have hi := hmax (column i) (List.mem_ofFn.2 ⟨i, rfl⟩)
  rwa [← htop, List.getElem_ofFn] at hi

theorem swapFirst_ofFn {α : Type} {n : Nat} (s : Fin (n + 1)) (v : Fin (n + 1) → α) :
    swapFirst s (List.ofFn v) = List.ofFn fun i => v (Equiv.swap 0 s i) := by
  rw [List.ofFn_succ, List.ofFn_succ]
  cases s using Fin.cases with
  | zero => simp [swapFirst]
  | succ s =>
      simp only [swapFirst, Fin.val_succ, Equiv.swap_apply_left, List.cons.injEq]
      refine ⟨by simp, List.ext_getElem (by simp) fun k hk hk' => ?_⟩
      rw [List.length_ofFn] at hk'
      by_cases hks : s.val = k
      · have hs : (⟨k, hk'⟩ : Fin n) = s := Fin.ext hks.symm
        simp [hks, hs]
      · have hne : (⟨k, hk'⟩ : Fin n) ≠ s := fun h => hks (congrArg Fin.val h).symm
        rw [List.getElem_set_ne hks, List.getElem_ofFn, List.getElem_ofFn,
          Equiv.swap_apply_of_ne_of_ne (Fin.succ_ne_zero _) fun h => hne (Fin.succ_injective n h)]

section Step

variable {n : Nat} (A : Matrix (Fin (n + 1)) (Fin (n + 1)) ℚ)

/-- The row of the pivot of the first column. -/
noncomputable def source : Fin (n + 1) := (pivotIndex_spec fun i => A i 0).choose

theorem pivotIndex_eq_source : pivotIndex (List.ofFn fun i => A i 0) = source A :=
  (pivotIndex_spec fun i => A i 0).choose_spec.1

/-- The table with the pivot's row moved to the top. -/
noncomputable def moved : Matrix (Fin (n + 1)) (Fin (n + 1)) ℚ :=
  A.submatrix (Equiv.swap 0 (source A)) id

/-- What the top row is multiplied with to reduce another one. -/
noncomputable def multiple (i : Fin n) : ℚ := moved A i.succ 0 / moved A 0 0

/-- The other rows, reduced, behind their first column. -/
noncomputable def remainder : Matrix (Fin n) (Fin n) ℚ :=
  .of fun i j => moved A i.succ j.succ - multiple A i * moved A 0 j.succ

theorem abs_moved_le (i : Fin (n + 1)) : |moved A i 0| ≤ |moved A 0 0| := by
  have htop : moved A 0 0 = A (source A) 0 := by
    rw [moved, Matrix.submatrix_apply, Equiv.swap_apply_left, id]
  rw [htop]
  exact (pivotIndex_spec fun i => A i 0).choose_spec.2 (Equiv.swap 0 (source A) i)

/-- Where the pivot is zero, so is its column. -/
theorem multiple_mul_pivot (i : Fin n) : multiple A i * moved A 0 0 = moved A i.succ 0 := by
  by_cases hp : moved A 0 0 = 0
  · have habs := abs_moved_le A i.succ
    rw [hp, abs_zero, abs_nonpos_iff] at habs
    rw [hp, mul_zero, habs]
  · exact div_mul_cancel₀ _ hp

theorem swapFirst_rowLists :
    swapFirst (source A) (rowLists A) = rowLists (moved A) := swapFirst_ofFn (source A) _

/-- A step by the rows that the exchange of rows leaves. -/
theorem step_of_swapFirst {first top : List ℚ} {others below : List (List ℚ)} {source : Nat}
    (hs : pivotIndex ((first :: others).map fun row => row.headD Scalar.zero) = source)
    (h : swapFirst source (first :: others) = top :: below) :
    step first others =
      if Scalar.isZero (top.headD Scalar.zero) then
        (⟨source, top.headD Scalar.zero, top.tail, below.map fun row => row.headD Scalar.zero⟩,
          below.map List.tail)
      else
        let multiples := (below.map fun row => row.headD Scalar.zero).map
          (· * (Scalar.one / top.headD Scalar.zero))
        (⟨source, top.headD Scalar.zero, top.tail, multiples⟩,
          List.zipWith (fun multiple row => reduceRow multiple top.tail row) multiples
            (below.map List.tail)) := by
  subst hs
  unfold step
  simp only [h]

/-- What one step records, and the rows that it leaves. -/
theorem step_rowLists :
    step (List.ofFn (A 0)) (List.ofFn fun i : Fin n => List.ofFn (A i.succ)) =
      (⟨source A, moved A 0 0, List.ofFn fun j : Fin n => moved A 0 j.succ,
        List.ofFn (multiple A)⟩, rowLists (remainder A)) := by
  have hheads : (rowLists A).map (fun row => row.headD Scalar.zero) = List.ofFn fun i => A i 0 := by
    simp [rowLists, List.map_ofFn, Function.comp_def, List.ofFn_succ]
  have hswap : swapFirst (source A) (rowLists A) =
      List.ofFn (moved A 0) :: List.ofFn fun i : Fin n => List.ofFn (moved A i.succ) := by
    rw [swapFirst_rowLists, rowLists_succ]
  have hpivot : (List.ofFn (moved A 0)).headD Scalar.zero = moved A 0 0 := by
    rw [List.ofFn_succ, List.headD_cons]
  have htop : (List.ofFn (moved A 0)).tail = List.ofFn fun j : Fin n => moved A 0 j.succ := by
    rw [List.ofFn_succ, List.tail_cons]
  have hbelow : (List.ofFn fun i : Fin n => List.ofFn (moved A i.succ)).map
      (fun row => row.headD Scalar.zero) = List.ofFn fun i : Fin n => moved A i.succ 0 := by
    simp [List.map_ofFn, Function.comp_def, List.ofFn_succ]
  have htails : (List.ofFn fun i : Fin n => List.ofFn (moved A i.succ)).map List.tail =
      List.ofFn fun i : Fin n => List.ofFn fun j : Fin n => moved A i.succ j.succ := by
    simp [List.map_ofFn, Function.comp_def, List.ofFn_succ]
  rw [rowLists_succ] at hheads hswap
  rw [step_of_swapFirst (hheads ▸ pivotIndex_eq_source A) hswap, hpivot, htop, hbelow, htails]
  by_cases hp : moved A 0 0 = 0
  · have hmultiple (i : Fin n) : multiple A i = 0 := by rw [multiple, hp, div_zero]
    have hhead (i : Fin n) : moved A i.succ 0 = multiple A i := by
      rw [← multiple_mul_pivot, hmultiple, zero_mul]
    have hremainder (i j : Fin n) : moved A i.succ j.succ = remainder A i j := by
      rw [remainder, Matrix.of_apply, hmultiple, zero_mul, sub_zero]
    simp only [(Scalar.isZero_rat _).2 hp, if_true, hhead, hremainder]
    rfl
  · have hmultiples : (List.ofFn fun i : Fin n => moved A i.succ 0).map
        (· * (Scalar.one / moved A 0 0)) = List.ofFn (multiple A) := by
      rw [List.map_ofFn]
      exact congrArg List.ofFn (funext fun i => mul_one_div _ _)
    have hreduce (i : Fin n) : reduceRow (multiple A i)
        (List.ofFn fun j : Fin n => moved A 0 j.succ)
        (List.ofFn fun j : Fin n => moved A i.succ j.succ) = List.ofFn (remainder A i) := by
      rw [reduceRow, zipWith_ofFn]
      refine congrArg List.ofFn (funext fun j => ?_)
      change -moved A 0 j.succ * multiple A i + moved A i.succ j.succ =
        moved A i.succ j.succ - multiple A i * moved A 0 j.succ
      ring
    rw [if_neg (mt (Scalar.isZero_rat _).1 hp), hmultiples]
    dsimp only
    rw [zipWith_ofFn, funext hreduce, rowLists]

theorem ofRows_succ :
    Elimination.ofRows (n + 1) (rowLists A) =
      ⟨source A, moved A 0 0, List.ofFn fun j : Fin n => moved A 0 j.succ,
        List.ofFn (multiple A)⟩ :: Elimination.ofRows n (rowLists (remainder A)) := by
  rw [rowLists_succ, Elimination.ofRows, step_rowLists]

/-- Row operations take the pivot out of the determinant; an exchange changes its sign. -/
theorem det_eq_remainder :
    A.det = moved A 0 0 * (if source A = 0 then 1 else -1) * (remainder A).det := by
  have hmoved : (moved A).det = (if source A = 0 then 1 else -1) * A.det := by
    rw [moved, Matrix.det_permute, Equiv.Perm.sign_swap']
    by_cases hs : source A = 0
    · simp [hs]
    · simp [hs, Ne.symm hs]
  -- The multiples of the top row, which itself is left as it is.
  let scale : Fin (n + 1) → ℚ := Fin.cons 0 (multiple A)
  let reduced : Matrix (Fin (n + 1)) (Fin (n + 1)) ℚ :=
    .of fun i j => moved A i j - scale i * moved A 0 j
  have hreduced : (moved A).det = reduced.det := by
    refine Matrix.det_eq_of_forall_row_eq_smul_add_const scale 0 rfl fun i j => ?_
    simp [reduced, scale]
  have hcolumn (i : Fin n) : reduced i.succ 0 = 0 := by
    simp [reduced, scale, multiple_mul_pivot]
  have hcorner : reduced.submatrix Fin.succ Fin.succ = remainder A := by
    ext i j
    simp [reduced, scale, remainder]
  have hdet : reduced.det = moved A 0 0 * (remainder A).det := by
    rw [Matrix.det_succ_column_zero, Fin.sum_univ_succ]
    simp only [hcolumn, mul_zero, zero_mul, Finset.sum_const_zero, add_zero]
    rw [Fin.succAbove_zero, hcorner]
    simp [reduced, scale]
  rw [mul_right_comm, ← hdet, ← hreduced, hmoved]
  split <;> ring

end Step

/-- The product of the pivots, with a sign for every row that was moved. -/
theorem determinant_eq_prod (steps : Elimination ℚ) :
    determinant steps =
      (steps.map Step.pivot).prod * (-1) ^ steps.countP fun s => s.source != 0 := by
  have hprod (x : ℚ) : steps.foldl (fun acc s => acc * s.pivot) x =
      x * (steps.map Step.pivot).prod := by
    induction steps generalizing x with
    | nil => exact (mul_one x).symm
    | cons s steps ih => rw [List.foldl_cons, ih, List.map_cons, List.prod_cons, ← mul_assoc]
  have hsign (k : Nat) : (if k % 2 = 0 then Scalar.one else -Scalar.one : ℚ) = (-1) ^ k := by
    obtain hk | hk := Nat.mod_two_eq_zero_or_one k
    · rw [if_pos hk, (Nat.even_iff.2 hk).neg_one_pow, Scalar.one_rat]
    · rw [if_neg (by omega), (Nat.odd_iff.2 hk).neg_one_pow]
      rfl
  rw [determinant, hprod, ← hsign, Scalar.one_rat, one_mul]

/-- Each step multiplies the determinant by its pivot, and negates it if it moved a row. -/
theorem determinant_cons (s : Step ℚ) (steps : Elimination ℚ) :
    determinant (s :: steps) =
      s.pivot * (if s.source = 0 then 1 else -1) * determinant steps := by
  rw [determinant_eq_prod, determinant_eq_prod, List.map_cons, List.prod_cons, List.countP_cons]
  by_cases hs : s.source = 0
  · simp [hs, mul_assoc]
  · simp [hs, pow_succ, mul_assoc]

theorem determinant_ofRows {n : Nat} (A : Matrix (Fin n) (Fin n) ℚ) :
    determinant (Elimination.ofRows n (rowLists A)) = A.det := by
  induction n with
  | zero => simp [Elimination.ofRows, determinant_eq_prod]
  | succ n ih =>
      have hsource : ((source A : Fin (n + 1)) : Nat) = 0 ↔ source A = 0 := by
        rw [Fin.ext_iff, Fin.val_zero]
      rw [ofRows_succ, determinant_cons, ih, det_eq_remainder]
      simp only [hsource]

theorem solve_cons {s : Step ℚ} {steps : Elimination ℚ} {b : List ℚ} {first : ℚ} {others : List ℚ}
    (h : swapFirst s.source b = first :: others) :
    solve (s :: steps) b =
      (solve steps (List.zipWith (fun multiple y => -first * multiple + y) s.multiples others)).bind
        fun xs => if Scalar.isZero s.pivot then none
          else some
            ((s.row.zip xs).foldr (fun (u, x) acc => -x * u + acc) first / s.pivot :: xs) := by
  rw [solve, h]
  dsimp only
  split <;> rename_i hxs <;> rw [hxs] <;> rfl

/-- The first equation, once the unknowns behind the first one are known. -/
theorem foldr_known {n : Nat} (row x : Fin n → ℚ) (first : ℚ) :
    ((List.ofFn row).zip (List.ofFn x)).foldr (fun (u, x) acc => -x * u + acc) first =
      first - ∑ j, row j * x j := by
  induction n with
  | zero => simp
  | succ n ih =>
      rw [List.ofFn_succ, List.ofFn_succ, List.zip_cons_cons, List.foldr_cons, ih,
        Fin.sum_univ_succ]
      ring

/-- A vector solves the system if it solves the reduced one and the first equation. -/
theorem mulVec_eq_of_remainder {n : Nat} {A : Matrix (Fin (n + 1)) (Fin (n + 1)) ℚ}
    {b : Fin (n + 1) → ℚ} {x₀ : ℚ} {x : Fin n → ℚ}
    (htop : moved A 0 0 * x₀ + ∑ j : Fin n, moved A 0 j.succ * x j = b (source A))
    (hrest : (remainder A).mulVec x =
      fun i => b (Equiv.swap 0 (source A) i.succ) - b (source A) * multiple A i) :
    A.mulVec (Fin.cons x₀ x) = b := by
  have hmoved (i : Fin (n + 1)) :
      (moved A).mulVec (Fin.cons x₀ x) i = b (Equiv.swap 0 (source A) i) := by
    rw [Matrix.mulVec, dotProduct, Fin.sum_univ_succ]
    simp only [Fin.cons_zero, Fin.cons_succ]
    cases i using Fin.cases with
    | zero => rw [htop, Equiv.swap_apply_left]
    | succ i =>
        have hi := congrFun hrest i
        simp only [Matrix.mulVec, dotProduct, remainder, Matrix.of_apply, sub_mul,
          Finset.sum_sub_distrib, mul_assoc, ← Finset.mul_sum] at hi
        have hhead : moved A i.succ 0 * x₀ = multiple A i * (moved A 0 0 * x₀) := by
          rw [← mul_assoc, multiple_mul_pivot]
        linear_combination hi + hhead + multiple A i * htop
  funext i
  have hi := hmoved (Equiv.swap 0 (source A) i)
  have hrow : (moved A).mulVec (Fin.cons x₀ x) (Equiv.swap 0 (source A) i) =
      A.mulVec (Fin.cons x₀ x) (Equiv.swap 0 (source A) (Equiv.swap 0 (source A) i)) := rfl
  rwa [hrow, Equiv.swap_apply_self] at hi

/-- A system with determinant zero has no answer, and any other one is solved. -/
theorem solve_ofRows {n : Nat} (A : Matrix (Fin n) (Fin n) ℚ) (b : Fin n → ℚ) :
    (A.det = 0 ∧ solve (Elimination.ofRows n (rowLists A)) (List.ofFn b) = none) ∨
    (A.det ≠ 0 ∧ ∃ x : Fin n → ℚ,
      solve (Elimination.ofRows n (rowLists A)) (List.ofFn b) = some (List.ofFn x) ∧
        A.mulVec x = b) := by
  induction n with
  | zero =>
      refine .inr ⟨by simp, Fin.elim0, rfl, ?_⟩
      exact funext fun i => i.elim0
  | succ n ih =>
      have hswap : swapFirst (source A) (List.ofFn b) =
          b (source A) :: List.ofFn fun i : Fin n => b (Equiv.swap 0 (source A) i.succ) := by
        rw [swapFirst_ofFn, List.ofFn_succ, Equiv.swap_apply_left]
      have hreduced : List.zipWith (fun multiple y => -b (source A) * multiple + y)
          (List.ofFn (multiple A)) (List.ofFn fun i : Fin n => b (Equiv.swap 0 (source A) i.succ)) =
          List.ofFn fun i : Fin n =>
            b (Equiv.swap 0 (source A) i.succ) - b (source A) * multiple A i := by
        rw [zipWith_ofFn]
        refine congrArg List.ofFn (funext fun i => ?_)
        ring
      rw [ofRows_succ, solve_cons hswap]
      dsimp only
      rw [hreduced, det_eq_remainder]
      obtain ⟨hdet, hsolve⟩ | ⟨hdet, x, hsolve, hx⟩ := ih (remainder A) fun i =>
        b (Equiv.swap 0 (source A) i.succ) - b (source A) * multiple A i
      · refine .inl ⟨by rw [hdet, mul_zero], ?_⟩
        rw [hsolve, Option.bind_none]
      · rw [hsolve, Option.bind_some, foldr_known]
        by_cases hp : moved A 0 0 = 0
        · refine .inl ⟨by rw [hp, zero_mul, zero_mul], if_pos ((Scalar.isZero_rat _).2 hp)⟩
        · refine .inr ⟨mul_ne_zero (mul_ne_zero hp (by split <;> simp)) hdet, Fin.cons
            ((b (source A) - ∑ j : Fin n, moved A 0 j.succ * x j) / moved A 0 0) x, ?_,
            mulVec_eq_of_remainder ?_ hx⟩
          · rw [if_neg (mt (Scalar.isZero_rat _).1 hp), List.ofFn_succ, Fin.cons_zero]
            rfl
          · rw [mul_div_cancel₀ _ hp, sub_add_cancel]

theorem solve_of_det_eq_zero {n : Nat} {A : Matrix (Fin n) (Fin n) ℚ} (h : A.det = 0)
    (b : Fin n → ℚ) : solve (Elimination.ofRows n (rowLists A)) (List.ofFn b) = none := by
  obtain ⟨-, hsolve⟩ | ⟨hdet, -⟩ := solve_ofRows A b
  · exact hsolve
  · exact absurd h hdet

theorem solve_of_det_ne_zero {n : Nat} {A : Matrix (Fin n) (Fin n) ℚ} (h : A.det ≠ 0)
    (b : Fin n → ℚ) :
    solve (Elimination.ofRows n (rowLists A)) (List.ofFn b) =
      some (List.ofFn (A⁻¹.mulVec b)) := by
  obtain ⟨hdet, -⟩ | ⟨-, x, hsolve, rfl⟩ := solve_ofRows A b
  · exact absurd hdet h
  · rw [hsolve, Matrix.mulVec_mulVec, Matrix.nonsing_inv_mul A (isUnit_iff_ne_zero.2 h),
      Matrix.one_mulVec]

end Elimination
end Reckon
