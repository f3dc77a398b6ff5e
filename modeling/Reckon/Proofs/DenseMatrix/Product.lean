import Mathlib.Algebra.BigOperators.Fin
import Mathlib.Data.Matrix.Mul
import Reckon.DenseMatrix.Kernels
import Reckon.Proofs.DenseMatrix.Layout
import Reckon.Proofs.Scalar

/-!
Products of matrices by their tables, in the order in which the terms are added, and the
matrices of zeros and ones. Over the rationals the order is of no account, and the table
is that of the product. A shape whose entries cannot be counted stops the program.
-/

namespace Reckon.DenseMatrix

section Terms

variable {α : Type} [Scalar α] {r k c : Nat}

/-- A row with a multiple of another one added; a multiple of zero is passed over. -/
def combine (row : Fin c → α) (scale : α) (other : Fin c → α) : Fin c → α :=
  if Scalar.isZero scale then row else fun j => row j + scale * other j

/-- A row with multiples of the rows of a table added, one after the other. -/
def combineRows (start : Fin c → α) (left : Fin k → α) (B : Matrix (Fin k) (Fin c) α) :
    Fin c → α :=
  (List.finRange k).foldl (fun row l => combine row (left l) (B l)) start

def productTable (A : Matrix (Fin r) (Fin k) α) (B : Matrix (Fin k) (Fin c) α) :
    Matrix (Fin r) (Fin c) α :=
  .of fun i => combineRows (fun _ => Scalar.zero) (A i) B

theorem addScaled_ofFn (row other : Fin c → α) (scale : α) :
    addScaled (List.ofFn row) scale (List.ofFn other) = List.ofFn (combine row scale other) := by
  unfold addScaled combine
  split
  · rfl
  · exact zipWith_ofFn _ _ _

theorem productRow_ofFn (start : Fin c → α) (left : Fin k → α) (B : Matrix (Fin k) (Fin c) α) :
    productRow (List.ofFn start) (List.ofFn left) (rowLists B) =
      List.ofFn (combineRows start left B) := by
  have hzip : (List.ofFn left).zip (rowLists B) =
      (List.finRange k).map fun l => (left l, List.ofFn (B l)) := by
    rw [← List.ofFn_eq_map]
    exact zipWith_ofFn _ _ _
  rw [productRow, hzip, List.foldl_map, combineRows]
  refine List.foldl_hom List.ofFn fun row l => ?_
  exact addScaled_ofFn row (B l) (left l)

theorem zeros_holds (hr : 0 < r) (hc : 0 < c) (h : r * c < UInt64.size) :
    ∃ m : DenseMatrix α, zeros r c = .ok m ∧
      m.Holds (.of fun _ _ => Scalar.zero : Matrix (Fin r) (Fin c) α) := by
  obtain ⟨m, hm, hholds⟩ :=
    exists_holds_of_fits (.of fun _ _ => Scalar.zero : Matrix (Fin r) (Fin c) α) hr hc h
  refine ⟨m, counted_eq_ok.2 ⟨h, ?_⟩, hholds⟩
  rw [← List.ofFn_const, ← hm, flatten_rowLists]
  rfl

variable {a b : DenseMatrix α} {A : Matrix (Fin r) (Fin k) α} {B : Matrix (Fin k) (Fin c) α}

theorem multiply_holds (ha : a.Holds A) (hb : b.Holds B) (h : r * c < UInt64.size) :
    ∃ m : DenseMatrix α, multiply a b = .ok ⟨m, r * k + k * c⟩ ∧
      m.Holds (productTable A B) := by
  obtain ⟨start, hstart, hzero⟩ := @zeros_holds α _ r c ha.rows_pos hb.cols_pos h
  obtain ⟨m, hm, hholds⟩ := exists_holds_of_fits (productTable A B) ha.rows_pos hb.cols_pos h
  have hrows : List.zipWith (fun left row => productRow row left b.toRows) a.toRows start.toRows =
      rowLists (productTable A B) := by
    rw [ha.toRows, hb.toRows, hzero.toRows]
    refine (zipWith_ofFn _ _ _).trans (congrArg List.ofFn (funext fun i => ?_))
    exact productRow_ofFn _ _ _
  refine ⟨m, ?_, hholds⟩
  have hsize : a.cols = b.rows := ha.cols_eq.trans hb.rows_eq.symm
  rw [multiply, if_neg (not_not.2 hsize), ha.rows_eq, hb.cols_eq, hstart, ok_bind]
  dsimp only
  have hproduct : new r c (rowLists (productTable A B)).flatten = .ok m := counted_eq_ok.2 ⟨h, hm⟩
  rw [hrows, hproduct, ok_bind, ha.length_data, hb.length_data]
  rfl

theorem multiply_eq_overflow (hsize : a.cols = b.rows) (h : UInt64.size ≤ a.rows * b.cols) :
    multiply a b = .error .overflow := by
  rw [multiply, if_neg (not_not.2 hsize), zeros, counted_of_le h]
  rfl

end Terms

section Rational

variable {r k c : Nat}

theorem combine_rat (row : Fin c → ℚ) (scale : ℚ) (other : Fin c → ℚ) (j : Fin c) :
    combine row scale other j = row j + scale * other j := by
  by_cases h : scale = 0
  · rw [combine, if_pos ((Scalar.isZero_rat _).2 h), h, zero_mul, add_zero]
  · rw [combine, if_neg (mt (Scalar.isZero_rat _).1 h)]

theorem foldl_combine_rat (ls : List (Fin k)) (start : Fin c → ℚ) (left : Fin k → ℚ)
    (B : Matrix (Fin k) (Fin c) ℚ) (j : Fin c) :
    ls.foldl (fun row l => combine row (left l) (B l)) start j =
      start j + (ls.map fun l => left l * B l j).sum := by
  induction ls generalizing start with
  | nil => exact (add_zero _).symm
  | cons l ls ih =>
      rw [List.foldl_cons, ih, combine_rat, List.map_cons, List.sum_cons, add_assoc]

theorem productTable_rat (A : Matrix (Fin r) (Fin k) ℚ) (B : Matrix (Fin k) (Fin c) ℚ) :
    productTable A B = A * B := by
  ext i j
  rw [productTable, Matrix.of_apply, combineRows, foldl_combine_rat, Scalar.zero_rat, zero_add,
    ← Fin.sum_univ_def, Matrix.mul_apply]

theorem identityRows_rat (n : Nat) :
    identityRows n = rowLists (1 : Matrix (Fin n) (Fin n) ℚ) := by
  refine List.ext_getElem (by simp [identityRows]) fun i hi hi' => ?_
  refine List.ext_getElem (by simp [identityRows, rowLists]) fun j hj hj' => ?_
  simp [identityRows, rowLists, Matrix.one_apply]

theorem identity_holds {n : Nat} (hn : 0 < n) (h : n * n < UInt64.size) :
    ∃ m : DenseMatrix ℚ, identity n = .ok m ∧ m.Holds (1 : Matrix (Fin n) (Fin n) ℚ) := by
  obtain ⟨m, hm, hholds⟩ := exists_holds_of_fits (1 : Matrix (Fin n) (Fin n) ℚ) hn hn h
  exact ⟨m, counted_eq_ok.2 ⟨h, by rw [identityRows_rat, hm]⟩, hholds⟩

/-- Where the identity has an outcome, it stands for the table that it is named for. -/
theorem holds_of_identity {n : Nat} {m : DenseMatrix ℚ} (h : identity n = .ok m) :
    m.Holds (1 : Matrix (Fin n) (Fin n) ℚ) := by
  obtain ⟨hrows, hcols, hdata⟩ := ofData_eq_ok.1 (counted_eq_ok.1 h).2
  exact ⟨hrows, hcols, by rw [hdata, identityRows_rat]⟩

end Rational

end Reckon.DenseMatrix
