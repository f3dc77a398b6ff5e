import Reckon.Proofs.DenseMatrix.Positions

/-!
How many entries are written for an inverse, whatever the scalars are. The elimination of a matrix
has a step for each of its rows, and every system that is solved with it has as many unknowns. So
the columns that are found have the shape of the matrix and all its entries.
-/

namespace Reckon

theorem forall_of_mapM {α β : Type} {f : α → Option β} {p : β → Prop} {xs : List α} {ys : List β}
    (h : xs.mapM f = some ys) (hp : ∀ x y, f x = some y → p y) : ∀ y ∈ ys, p y := by
  have hfound := forall₂_of_mapM h
  clear h
  induction hfound with
  | nil => simp
  | cons hy _ ih => exact List.forall_mem_cons.2 ⟨hp _ _ hy, ih⟩

namespace Elimination

variable {α : Type}

theorem length_swapFirst (i : Nat) (xs : List α) : (swapFirst i xs).length = xs.length := by
  cases xs with
  | nil => rfl
  | cons x xs => cases i <;> simp [swapFirst]

variable [Scalar α]

theorem length_step (first : List α) (others : List (List α)) :
    (step first others).2.length = others.length := by
  unfold step
  dsimp only
  generalize pivotIndex ((first :: others).map fun row => row.headD Scalar.zero) = source
  have hlength := length_swapFirst source (first :: others)
  cases hrows : swapFirst source (first :: others) with
  | nil =>
      rw [hrows] at hlength
      cases hlength
  | cons top below =>
      rw [hrows] at hlength
      dsimp only
      split <;> simp [Nat.succ.inj hlength]

theorem length_ofRows {n : Nat} {rows : List (List α)} (h : rows.length = n) :
    (ofRows n rows).length = n := by
  induction n generalizing rows with
  | zero => rfl
  | succ n ih =>
      cases rows with
      | nil => cases h
      | cons first others =>
          rw [ofRows]
          exact congrArg (· + 1) (ih ((length_step first others).trans (Nat.succ.inj h)))

theorem length_solve {steps : Elimination α} {b xs : List α} (h : solve steps b = some xs) :
    xs.length = steps.length := by
  induction steps generalizing b xs with
  | nil =>
      cases h
      rfl
  | cons s steps ih =>
      rw [solve] at h
      split at h
      · cases h
      · dsimp only at h
        split at h
        · cases h
        · rename_i rest hrest
          split at h
          · cases h
          · cases h
            exact congrArg (· + 1) (ih hrest)

end Elimination

namespace DenseMatrix

variable {α : Type} {m : DenseMatrix α}

theorem raggedRow?_eq_none_iff {cols index : Nat} {rows : List (List α)} :
    raggedRow? cols index rows = none ↔ ∀ row ∈ rows, row.length = cols := by
  induction rows generalizing index with
  | nil => simp [raggedRow?]
  | cons row rows ih =>
      rw [raggedRow?, List.forall_mem_cons]
      split <;> simp [*]

theorem length_pieces (length count : Nat) (xs : List α) :
    (pieces length count xs).length = count := by
  induction count generalizing xs with
  | zero => rfl
  | succ count ih => rw [pieces, List.length_cons, ih]

variable [Scalar α]

theorem length_identityRows (n : Nat) : (identityRows n : List (List α)).length = n := by
  simp [identityRows]

/-- The factors of a matrix have as many steps as it has rows. -/
theorem length_steps_ofMatrix {lu : LuFactors α} (h : LuFactors.ofMatrix m = .ok lu) :
    lu.steps.length = lu.size := by
  obtain ⟨_, -, h⟩ := bind_eq_ok.1 h
  cases h
  exact Elimination.length_ofRows (length_pieces _ _ _)

/-- The columns of an inverse become a matrix of the same shape, which no check refuses. -/
theorem exists_ofColumnMajor {lu : LuFactors α} (hlu : LuFactors.ofMatrix m = .ok lu)
    {columns : ColumnMajor α} (h : lu.inverseColumns = some columns) :
    ∃ inv, ofColumnMajor columns = .ok inv ∧ inv.shape = m.shape := by
  have hsteps := length_steps_ofMatrix hlu
  obtain ⟨_, hsquare, hfactors⟩ := bind_eq_ok.1 hlu
  have hsize : lu.size = m.rows := by rw [← Except.ok.inj hfactors]
  have hcols : m.rows = m.cols := by
    unfold LuFactors.requireSquare at hsquare
    split at hsquare
    · rename_i hbeq
      exact beq_iff_eq.1 hbeq
    · cases hsquare
  obtain ⟨found, hfound, hcolumns⟩ := Option.bind_eq_some_iff.1 h
  obtain rfl := Option.some.inj hcolumns
  have hcount : found.length = m.rows := by
    rw [← (forall₂_of_mapM hfound).length_eq, length_identityRows, hsize]
  have hlength : ∀ column ∈ found, column.length = m.rows := forall_of_mapM hfound
    fun _ _ hsolve => (Elimination.length_solve hsolve).trans (hsteps.trans hsize)
  have hdata : (ColumnMajor.ofColumns lu.size found).transpose.data.length =
      found.flatten.length := List.length_mapIdx
  have hentries : (ColumnMajor.ofColumns lu.size found).transpose.data.length =
      m.rows * m.cols := by
    rw [hdata, length_flatten_of_forall hlength, hcount, hcols]
  obtain ⟨inv, hinv⟩ := exists_ofData_iff.2 ⟨⟨m.rows_pos, m.cols_pos⟩, hentries, m.fits⟩
  refine ⟨inv, ?_, ?_⟩
  · rw [← hinv, ofColumnMajor, ColumnMajor.ofColumns, hsize, hcount, hcols]
  · obtain ⟨hrows, hcols', -⟩ := ofData_eq_ok.1 hinv
    rw [shape, shape, hrows, hcols']

end DenseMatrix
end Reckon
