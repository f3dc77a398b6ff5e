import Reckon.Proofs.DenseMatrix.Elimination
import Reckon.Proofs.DenseMatrix.Product

/-!
The determinant of a matrix over the rationals, and the laws that it inherits from the
sum over permutations.
-/

namespace Reckon

theorem LuFactors.requireSquare_eq_ok {α : Type} {op : String} {m : DenseMatrix α}
    (h : m.rows = m.cols) : requireSquare op m = .ok () :=
  if_pos (beq_iff_eq.2 h)

theorem LuFactors.requireSquare_eq_error {α : Type} {op : String} {m : DenseMatrix α}
    (h : m.rows ≠ m.cols) :
    requireSquare op m = .error (.of (.dimension (.notSquare op m.rows m.cols))) :=
  if_neg (mt beq_iff_eq.1 h)

namespace DenseMatrix

theorem Holds.square {n : Nat} {α : Type} {A : Matrix (Fin n) (Fin n) α} {m : DenseMatrix α}
    (h : m.Holds A) : m.rows = m.cols := h.rows_eq.trans h.cols_eq.symm

variable {n : Nat} {A B : Matrix (Fin n) (Fin n) ℚ} {m a b : DenseMatrix ℚ}

/-- The factors of a matrix are those of its table: the way through the column-major form
and back loses nothing. -/
theorem ofMatrix_holds (h : m.Holds A) :
    LuFactors.ofMatrix m = .ok ⟨n, Elimination.ofRows n (rowLists A)⟩ := by
  rw [LuFactors.ofMatrix, LuFactors.requireSquare_eq_ok h.square, ok_bind, h.toColumnMajor,
    transpose_ofColumns, columns_ofColumns, h.rows_eq]
  rfl

theorem determinant_holds (h : m.Holds A) : m.determinant = .ok ⟨A.det, n * n⟩ := by
  rw [determinant, LuFactors.requireSquare_eq_ok h.square, ok_bind, ofMatrix_holds h, ok_bind,
    LuFactors.determinant, Elimination.determinant_ofRows, h.length_data]
  rfl

/-- The determinant is the signed sum over the permutations, whatever rows the elimination
moves. So it is one for the identity, zero for two equal rows, the same for the transpose
and multiplicative; and a matrix that is not square has none. -/
theorem determinant_eq_leibniz :
    (∀ {n : Nat} (A : Matrix (Fin n) (Fin n) ℚ) (m : DenseMatrix ℚ), m.Holds A →
      m.determinant = .ok
        ⟨∑ σ : Equiv.Perm (Fin n), ((Equiv.Perm.sign σ : ℤ) : ℚ) * ∏ i, A (σ i) i, n * n⟩ ∧
      m.transpose.determinant = m.determinant ∧
      ((∃ i j, i ≠ j ∧ A i = A j) → m.determinant = .ok ⟨0, n * n⟩)) ∧
    (∀ n : Nat, ((∃ m : DenseMatrix ℚ, identity n = .ok m) ↔ 0 < n ∧ n * n < UInt64.size) ∧
      ∀ m : DenseMatrix ℚ, identity n = .ok m → m.determinant = .ok ⟨1, n * n⟩) ∧
    (∀ {n : Nat} (A B : Matrix (Fin n) (Fin n) ℚ) (a b : DenseMatrix ℚ), a.Holds A → b.Holds B →
      ∃ product x y, multiply a b = .ok product ∧ a.determinant = .ok ⟨x, n * n⟩ ∧
        b.determinant = .ok ⟨y, n * n⟩ ∧ product.value.determinant = .ok ⟨x * y, n * n⟩) ∧
    ∀ m : DenseMatrix ℚ, m.rows ≠ m.cols →
      ∃ failure, m.determinant = .error failure ∧ failure.kind = .dimensionMismatch := by
  refine ⟨fun A m h => ⟨?_, ?_, ?_⟩, fun n => ⟨⟨?_, ?_⟩, fun m h => ?_⟩,
    fun A B a b ha hb => ?_, fun m h => ?_⟩
  · rw [determinant_holds h, Matrix.det_apply']
  · rw [determinant_holds h, determinant_holds h.transpose, Matrix.det_transpose]
  · rintro ⟨i, j, hne, hrow⟩
    rw [determinant_holds h, Matrix.det_zero_of_row_eq hne hrow]
  · rintro ⟨m, h⟩
    exact ⟨(holds_of_identity h).rows_pos, (holds_of_identity h).fits⟩
  · rintro ⟨hn, hfits⟩
    obtain ⟨m, hm, -⟩ := identity_holds hn hfits
    exact ⟨m, hm⟩
  · rw [determinant_holds (holds_of_identity h), Matrix.det_one]
  · obtain ⟨c, hc, hproduct⟩ := multiply_holds ha hb ha.fits
    rw [productTable_rat] at hproduct
    refine ⟨_, A.det, B.det, hc, determinant_holds ha, determinant_holds hb, ?_⟩
    rw [determinant_holds hproduct, Matrix.det_mul]
  · refine ⟨.of (.dimension (.notSquare "determinant" m.rows m.cols)), ?_, rfl⟩
    rw [determinant, LuFactors.requireSquare_eq_error h]
    rfl

/-- The pivot of the first column lies in the second row. -/
theorem determinant_eq_leibniz_moved_row :
    ∃ m : DenseMatrix ℚ, ofData 2 2 [0, 2, 3, 4] = .ok m ∧ m.Holds !![(0 : ℚ), 2; 3, 4] ∧
      m.determinant = .ok ⟨-6, 4⟩ := by
  obtain ⟨m, hm, hholds⟩ := exists_holds_of_fits !![(0 : ℚ), 2; 3, 4] (by decide) (by decide)
    (by decide)
  refine ⟨m, hm, hholds, ?_⟩
  rw [(determinant_eq_leibniz.1 _ m hholds).1, ← Matrix.det_apply', Matrix.det_fin_two_of]
  norm_num

end DenseMatrix
end Reckon
