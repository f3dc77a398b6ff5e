import Reckon.Proofs.DenseMatrix.Determinant

/-!
Linear systems and inverses over the rationals. A matrix is refused as singular while its
determinant is within the limit; beyond it, what comes back is the inverse from both sides,
in the layout of the matrix itself.
-/

namespace Reckon

namespace DenseMatrix

variable {n : Nat} {A : Matrix (Fin n) (Fin n) ℚ} {m : DenseMatrix ℚ}

theorem singularLimit_rat : (singularLimit : ℚ) = 1 / 10 ^ 12 := by
  have hlimit : (singularLimit : ℚ) = 1 / (1000000000000 : Nat) := rfl
  rw [hlimit]
  norm_num

/-- The columns that solve the system for the columns of the identity are those of the
inverse. -/
theorem inverseColumns_of_det_ne_zero (h : A.det ≠ 0) :
    LuFactors.inverseColumns ⟨n, Elimination.ofRows n (rowLists A)⟩ =
      some (.ofColumns n (rowLists A⁻¹.transpose)) := by
  have hcolumn (i : Fin n) : Elimination.solve (Elimination.ofRows n (rowLists A))
      (List.ofFn ((1 : Matrix (Fin n) (Fin n) ℚ) i)) = some (List.ofFn (A⁻¹.transpose i)) := by
    rw [Elimination.solve_of_det_ne_zero h]
    refine congrArg (fun x => some (List.ofFn x)) (funext fun j => ?_)
    simp [Matrix.mulVec, dotProduct, Matrix.one_apply]
  have hcolumns : (identityRows n).mapM (Elimination.solve (Elimination.ofRows n (rowLists A))) =
      some (rowLists A⁻¹.transpose) := by
    rw [identityRows_rat]
    exact mapM_ofFn hcolumn
  rw [LuFactors.inverseColumns, hcolumns]
  rfl

/-- Columns become rows again: the inverse comes back in the layout of the matrix. -/
theorem luInverse_of_det_ne_zero (hn : 0 < n) (hfits : n * n < UInt64.size) (h : A.det ≠ 0) :
    ∃ b : DenseMatrix ℚ,
      LuFactors.inverse ⟨n, Elimination.ofRows n (rowLists A)⟩ = .ok b ∧ b.Holds A⁻¹ := by
  obtain ⟨b, hb, hholds⟩ := exists_holds_of_fits A⁻¹ hn hn hfits
  refine ⟨b, ?_, hholds⟩
  rw [LuFactors.inverse, inverseColumns_of_det_ne_zero h]
  dsimp only
  rw [ofColumnMajor, transpose_ofColumns, ColumnMajor.ofColumns, ColumnMajor.ofColumns]
  simp only [length_rowLists, hb]

theorem luSolve_of_det_eq_zero (h : A.det = 0) (y : Fin n → ℚ) :
    LuFactors.solve ⟨n, Elimination.ofRows n (rowLists A)⟩ (List.ofFn y) =
      .error (.of .singularMatrix) := by
  rw [LuFactors.solve, if_neg (by simp), Elimination.solve_of_det_eq_zero h]

theorem luSolve_of_det_ne_zero (h : A.det ≠ 0) (y : Fin n → ℚ) :
    LuFactors.solve ⟨n, Elimination.ofRows n (rowLists A)⟩ (List.ofFn y) =
      .ok (List.ofFn (A⁻¹.mulVec y)) := by
  rw [LuFactors.solve, if_neg (by simp), Elimination.solve_of_det_ne_zero h]

theorem inverse_eq_ite (h : m.Holds A) :
    m.inverse = if |A.det| ≤ 1 / 10 ^ 12 then
        .error ((Failure.of .singularMatrix).suggest "Check for linearly dependent rows")
      else (LuFactors.inverse ⟨n, Elimination.ofRows n (rowLists A)⟩).map fun b => ⟨b, n * n⟩ := by
  rw [inverse, LuFactors.requireSquare_eq_ok h.square, ok_bind, ofMatrix_holds h, ok_bind,
    LuFactors.determinant, Elimination.determinant_ofRows, Scalar.magnitude_rat,
    singularLimit_rat, h.length_data]
  simp only [Scalar.atMost_rat]
  rfl

/-- Beyond the limit the determinant is not zero, and there is an inverse. -/
theorem inverse_of_limit_lt (h : m.Holds A) (hlarge : ¬ |A.det| ≤ 1 / 10 ^ 12) :
    A.det ≠ 0 ∧ ∃ b : DenseMatrix ℚ, m.inverse = .ok ⟨b, n * n⟩ ∧ b.Holds A⁻¹ := by
  have hdet : A.det ≠ 0 := by
    intro hzero
    rw [hzero, abs_zero] at hlarge
    exact hlarge (by norm_num)
  obtain ⟨b, hb, hholds⟩ := luInverse_of_det_ne_zero h.rows_pos h.fits hdet
  refine ⟨hdet, b, ?_, hholds⟩
  rw [inverse_eq_ite h, if_neg hlarge, hb]
  rfl

/-- Unless its determinant is within the limit, a matrix has an inverse of its own shape
that is one from both sides, and solving a system is applying it. Systems are solved up to
determinants of exactly zero, and refused as singular there. -/
theorem inverse_two_sided (h : m.Holds A) :
    ∃ lu, LuFactors.ofMatrix m = .ok lu ∧
      (m.inverse =
          .error ((Failure.of .singularMatrix).suggest "Check for linearly dependent rows") ↔
        |A.det| ≤ 1 / 10 ^ 12) ∧
      (¬ |A.det| ≤ 1 / 10 ^ 12 → ∃ b unit : DenseMatrix ℚ, ∃ B : Matrix (Fin n) (Fin n) ℚ,
        m.inverse = .ok ⟨b, n * n⟩ ∧ b.shape = m.shape ∧ b.Holds B ∧
        identity n = .ok unit ∧
        multiply b m = .ok ⟨unit, n * n + n * n⟩ ∧ multiply m b = .ok ⟨unit, n * n + n * n⟩ ∧
        ∀ y : Fin n → ℚ, lu.solve (List.ofFn y) = .ok (List.ofFn (B.mulVec y))) ∧
      ∀ y : Fin n → ℚ,
        (lu.solve (List.ofFn y) = .error (.of .singularMatrix) ↔ A.det = 0) ∧
        (A.det ≠ 0 → ∃ x : Fin n → ℚ, lu.solve (List.ofFn y) = .ok (List.ofFn x) ∧
          A.mulVec x = y) := by
  refine ⟨_, ofMatrix_holds h, ⟨fun hsingular => ?_, fun hsmall => ?_⟩, fun hlarge => ?_,
    fun y => ⟨⟨fun hsingular => ?_, fun hdet => ?_⟩, fun hdet => ?_⟩⟩
  · refine Classical.byContradiction fun hlarge => ?_
    obtain ⟨-, b, hb, -⟩ := inverse_of_limit_lt h hlarge
    cases hsingular.symm.trans hb
  · rw [inverse_eq_ite h, if_pos hsmall]
  · obtain ⟨hdet, b, hb, hholds⟩ := inverse_of_limit_lt h hlarge
    obtain ⟨unit, hunit, hone⟩ := identity_holds h.rows_pos h.fits
    obtain ⟨left, hleft, hleft'⟩ := multiply_holds hholds h h.fits
    obtain ⟨right, hright, hright'⟩ := multiply_holds h hholds h.fits
    rw [productTable_rat, Matrix.nonsing_inv_mul A (isUnit_iff_ne_zero.2 hdet)] at hleft'
    rw [productTable_rat, Matrix.mul_nonsing_inv A (isUnit_iff_ne_zero.2 hdet)] at hright'
    have hshape : b.shape = m.shape := by
      rw [shape, shape, hholds.rows_eq, hholds.cols_eq, h.rows_eq, h.cols_eq]
    refine ⟨b, unit, A⁻¹, hb, hshape, hholds, hunit, ?_, ?_, luSolve_of_det_ne_zero hdet⟩
    · rw [hleft, hleft'.eq hone]
    · rw [hright, hright'.eq hone]
  · refine Classical.byContradiction fun hdet => ?_
    cases hsingular.symm.trans (luSolve_of_det_ne_zero hdet y)
  · exact luSolve_of_det_eq_zero hdet y
  · refine ⟨_, luSolve_of_det_ne_zero hdet y, ?_⟩
    rw [Matrix.mulVec_mulVec, Matrix.mul_nonsing_inv A (isUnit_iff_ne_zero.2 hdet),
      Matrix.one_mulVec]

/-- The inverse of a matrix that is not symmetric, with a row moved on the way. -/
theorem inverse_two_sided_moved_row :
    ∃ m b unit : DenseMatrix ℚ, ofData 2 2 [0, 2, 3, 4] = .ok m ∧
      m.Holds !![(0 : ℚ), 2; 3, 4] ∧ m.inverse = .ok ⟨b, 4⟩ ∧ identity 2 = .ok unit ∧
      multiply b m = .ok ⟨unit, 8⟩ ∧ multiply m b = .ok ⟨unit, 8⟩ := by
  obtain ⟨m, hm, hholds⟩ := exists_holds_of_fits !![(0 : ℚ), 2; 3, 4] (by decide) (by decide)
    (by decide)
  have hlarge : ¬ |(!![(0 : ℚ), 2; 3, 4]).det| ≤ 1 / 10 ^ 12 := by
    rw [Matrix.det_fin_two_of]
    norm_num
  obtain ⟨lu, -, -, hinverse, -⟩ := inverse_two_sided hholds
  obtain ⟨b, unit, -, hb, -, -, hunit, hleft, hright, -⟩ := hinverse hlarge
  exact ⟨m, b, unit, hm, hholds, hb, hunit, hleft, hright⟩

example : (((ofData 2 2 [0, 2, 3, 4] : Except Failure (DenseMatrix ℚ)) >>= inverse).toOption.map
    fun b => b.value.data) = some [-2 / 3, 1 / 3, 1 / 2, 0] := by
  decide +kernel

end DenseMatrix
end Reckon
