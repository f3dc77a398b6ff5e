import Reckon.Proofs.DenseMatrix.Shapes

/-!
Matrices and lists of rows, each made from the other. A list of rows makes a matrix exactly if
all rows are of one length, which is not zero, and their entries can be counted; the matrix
then has these rows and no others, entry by entry. Every matrix makes itself again, through its
rows, its transpose or its column-major form.
-/

namespace Reckon.DenseMatrix

variable {α : Type} {r k c : Nat} {m : DenseMatrix α}

/-- There are rows, they are of one length, and they are not empty. -/
def Rectangular (rows : List (List α)) : Prop :=
  rows ≠ [] ∧ ∃ cols, 0 < cols ∧ ∀ row ∈ rows, row.length = cols

/-- Two rows differ in length. -/
def Ragged (rows : List (List α)) : Prop :=
  ∃ row ∈ rows, ∃ row' ∈ rows, row.length ≠ row'.length

section Tables

/-- Rows of one length are the rows of a table. -/
theorem exists_rowLists {rows : List (List α)} (h : ∀ row ∈ rows, row.length = c) :
    ∃ A : Matrix (Fin rows.length) (Fin c) α, rowLists A = rows := by
  have hlt (i : Fin rows.length) (j : Fin c) : j.val < (rows.get i).length :=
    (h _ (List.get_mem rows i)).symm ▸ j.isLt
  refine ⟨.of fun i j => (rows.get i).get ⟨j, hlt i j⟩, ?_⟩
  refine List.ext_getElem (length_rowLists _) fun i hi hi' => ?_
  refine List.ext_getElem ?_ fun j hj hj' => ?_
  · simp [rowLists, h _ (List.getElem_mem hi')]
  · simp [rowLists]

variable {A : Matrix (Fin r) (Fin c) α}

namespace Holds

/-- Within the shape and outside of it, the entries are those of the rows. -/
theorem get?_eq (h : m.Holds A) (i j : Nat) :
    m.get? i j = (rowLists A)[i]?.bind fun row => row[j]? := by
  by_cases hi : i < r
  · have hrow : (rowLists A)[i]? = some (List.ofFn (A ⟨i, hi⟩)) := by simp [rowLists, hi]
    rw [hrow, Option.bind_some]
    by_cases hj : j < c
    · rw [h.get? ⟨i, hi⟩ ⟨j, hj⟩]
      simp [hj]
    · simp [DenseMatrix.get?, h.cols_eq, hj]
  · simp [DenseMatrix.get?, h.rows_eq, rowLists, hi]

theorem row?_eq (h : m.Holds A) (i : Nat) : m.row? i = (rowLists A)[i]? := by
  by_cases hi : i < r
  · rw [h.row? ⟨i, hi⟩, h.rowAt ⟨i, hi⟩]
    simp [rowLists, hi]
  · simp [DenseMatrix.row?, h.rows_eq, rowLists, hi]

theorem get?_transpose (h : m.Holds A) (i j : Nat) : m.transpose.get? j i = m.get? i j := by
  by_cases hin : i < r ∧ j < c
  · rw [h.get? ⟨i, hin.1⟩ ⟨j, hin.2⟩, h.transpose.get? ⟨j, hin.2⟩ ⟨i, hin.1⟩]
    rfl
  · simp [DenseMatrix.get?, h.rows_eq, h.cols_eq, h.transpose.rows_eq, h.transpose.cols_eq,
      and_comm, hin]

theorem transpose_transpose (h : m.Holds A) : m.transpose.transpose = m :=
  h.transpose.transpose.eq h

theorem ofColumnMajor_toColumnMajor (h : m.Holds A) : ofColumnMajor m.toColumnMajor = .ok m := by
  have hstored : m.toColumnMajor.transpose = .ofColumns c (rowLists A) := by
    rw [h.toColumnMajor, transpose_ofColumns]
  rw [ofColumnMajor, hstored, ofData_eq_ok]
  exact ⟨rfl, rfl, h.data_eq⟩

end Holds

end Tables

section Rows

variable {rows : List (List α)}

theorem not_ragged_iff : ¬ Ragged rows ↔ ∃ cols, ∀ row ∈ rows, row.length = cols := by
  cases rows with
  | nil => simp [Ragged]
  | cons first rest =>
      constructor
      · intro h
        refine ⟨first.length, fun row hrow => ?_⟩
        by_contra hne
        exact h ⟨row, hrow, first, List.mem_cons_self, hne⟩
      · rintro ⟨cols, h⟩ ⟨row, hrow, row', hrow', hne⟩
        exact hne ((h row hrow).trans (h row' hrow').symm)

/-- What is told of ragged rows: the first one that is not as long as the first of all. -/
theorem raggedRow?_eq_some {cols start index got : Nat}
    (h : raggedRow? cols start rows = some (index, got)) :
    ∃ before row after, rows = before ++ row :: after ∧ index = start + before.length ∧
      got = row.length ∧ row.length ≠ cols ∧ ∀ row' ∈ before, row'.length = cols := by
  induction rows generalizing start with
  | nil => cases h
  | cons first rest ih =>
      rw [raggedRow?] at h
      split at h
      · rename_i hfirst
        obtain ⟨before, row, after, rfl, rfl, hgot, hrow, hbefore⟩ := ih h
        refine ⟨first :: before, row, after, rfl, ?_, hgot, hrow, ?_⟩
        · rw [List.length_cons]
          omega
        · exact List.forall_mem_cons.2 ⟨hfirst, hbefore⟩
      · rename_i hfirst
        cases h
        exact ⟨[], first, rest, rfl, rfl, rfl, hfirst, by simp⟩

theorem ofRows_of_forall (hne : rows ≠ []) (h : ∀ row ∈ rows, row.length = c) :
    ofRows rows = ofData rows.length c rows.flatten := by
  cases rows with
  | nil => exact absurd rfl hne
  | cons first rest =>
      have hfirst : first.length = c := h first List.mem_cons_self
      have hragged : raggedRow? first.length 0 (first :: rest) = none :=
        raggedRow?_eq_none_iff.2 (hfirst ▸ h)
      rw [ofRows, hragged, hfirst]
      rfl

/-- The failure names the first row that is not as long as the first of all. -/
theorem ofRows_of_ragged (h : Ragged rows) :
    ∃ first before row after, rows.head? = some first ∧ rows = before ++ row :: after ∧
      (∀ row' ∈ before, row'.length = first.length) ∧ row.length ≠ first.length ∧
      ofRows rows =
        .error (.of (.dimension (.raggedRow before.length row.length first.length))) := by
  cases rows with
  | nil =>
      obtain ⟨row, hrow, -⟩ := h
      cases hrow
  | cons first rest =>
      cases hragged : raggedRow? first.length 0 (first :: rest) with
      | none => exact absurd h (not_ragged_iff.2 ⟨_, raggedRow?_eq_none_iff.1 hragged⟩)
      | some told =>
          obtain ⟨before, row, after, hrows, hindex, hgot, hrow, hbefore⟩ :=
            raggedRow?_eq_some hragged
          refine ⟨first, before, row, after, rfl, hrows, hbefore, hrow, ?_⟩
          rw [ofRows, hragged]
          dsimp only
          rw [hindex, hgot, Nat.zero_add]

/-- Every list of rows that is not rectangular fails, for one of three reasons. -/
theorem ofRows_of_not_rectangular (h : ¬ Rectangular rows) :
    ∃ f, ofRows rows = .error f ∧
      (rows = [] ∧ f.kind = .emptyInput ∨
        Ragged rows ∧ f.kind = .dimensionMismatch ∨
        rows ≠ [] ∧ (∀ row ∈ rows, row = []) ∧ f.kind = .invalidArgument) := by
  by_cases hne : rows = []
  · rw [hne]
    exact ⟨_, rfl, .inl ⟨rfl, rfl⟩⟩
  · by_cases hragged : Ragged rows
    · obtain ⟨_, _, _, _, -, -, -, -, hfails⟩ := ofRows_of_ragged hragged
      exact ⟨_, hfails, .inr (.inl ⟨hragged, rfl⟩)⟩
    · obtain ⟨cols, hcols⟩ := not_ragged_iff.1 hragged
      obtain rfl : cols = 0 := Nat.eq_zero_of_not_pos fun hpos => h ⟨hne, cols, hpos, hcols⟩
      have hempty : ∀ row ∈ rows, row = [] := fun row hrow =>
        List.length_eq_zero_iff.1 (hcols row hrow)
      refine ⟨.of (.argument (.emptyShape rows.length 0)), ?_, .inr (.inr ⟨hne, hempty, rfl⟩)⟩
      rw [ofRows_of_forall hne hcols, ofData, dif_neg (by simp)]

theorem rectangular_of_ofRows (h : ofRows rows = .ok m) : Rectangular rows := by
  by_contra hne
  obtain ⟨f, hfails, -⟩ := ofRows_of_not_rectangular hne
  rw [hfails] at h
  cases h

/-- The matrix that rows make stands for the table of these rows. -/
theorem exists_holds_of_ofRows (h : ofRows rows = .ok m) :
    ∃ A : Matrix (Fin rows.length) (Fin m.cols) α, m.Holds A ∧ rowLists A = rows := by
  obtain ⟨hne, cols, -, hcols⟩ := rectangular_of_ofRows h
  rw [ofRows_of_forall hne hcols] at h
  obtain ⟨hlength, rfl, hdata⟩ := ofData_eq_ok.1 h
  obtain ⟨A, hA⟩ := exists_rowLists hcols
  exact ⟨A, ⟨hlength, rfl, by rw [hdata, hA]⟩, hA⟩

theorem exists_ofRows_iff :
    (∃ m, ofRows rows = .ok m) ↔ Rectangular rows ∧ rows.flatten.length < UInt64.size := by
  constructor
  · rintro ⟨m, hm⟩
    obtain ⟨A, hA, hrows⟩ := exists_holds_of_ofRows hm
    refine ⟨rectangular_of_ofRows hm, ?_⟩
    rw [← hrows, length_flatten_rowLists]
    exact hA.fits
  · rintro ⟨⟨hne, cols, hpos, hcols⟩, hfits⟩
    rw [length_flatten_of_forall hcols] at hfits
    rw [ofRows_of_forall hne hcols, exists_ofData_iff]
    exact ⟨⟨List.length_pos_iff.2 hne, hpos⟩, length_flatten_of_forall hcols, hfits⟩

/-- The rows of a matrix make the matrix again. -/
theorem ofRows_toRows (m : DenseMatrix α) : ofRows m.toRows = .ok m := by
  obtain ⟨A, hA⟩ := exists_holds (m := m) rfl rfl
  have hlength : m.toRows.length = m.rows := by rw [hA.toRows, length_rowLists]
  have hcols : ∀ row ∈ m.toRows, row.length = m.cols := by
    rw [hA.toRows]
    exact fun _ => length_of_mem_rowLists
  have hne : m.toRows ≠ [] := List.ne_nil_of_length_pos (hlength ▸ m.rows_pos)
  rw [ofRows_of_forall hne hcols, hlength, ofData_eq_ok]
  exact ⟨rfl, rfl, by rw [hA.toRows, hA.data_eq]⟩

end Rows

section Product

variable {a b : DenseMatrix ℚ}

theorem multiply_eq_error_of_ne {α : Type} [Scalar α] {a b : DenseMatrix α}
    (h : a.cols ≠ b.rows) :
    a.multiply b = .error (.failure
      (.of (.dimension (.product "multiply" a.rows a.cols b.rows b.cols)))) :=
  if_pos h

/-- Over the rationals, the transpose of a product is the product of the transposes, the other
way round. Where the product overflows, so does the other one. -/
theorem multiply_transpose (h : a.cols = b.rows) :
    (a.multiply b).map (Measured.map transpose) = b.transpose.multiply a.transpose := by
  have hswapped : b.transpose.cols = a.transpose.rows := h.symm
  by_cases hfits : a.rows * b.cols < UInt64.size
  · obtain ⟨A, hA⟩ := exists_holds (m := a) rfl h
    obtain ⟨B, hB⟩ := exists_holds (m := b) rfl rfl
    obtain ⟨product, hproduct, hholds⟩ := multiply_holds hA hB hfits
    obtain ⟨product', hproduct', hholds'⟩ :=
      multiply_holds hB.transpose hA.transpose (Nat.mul_comm a.rows b.cols ▸ hfits)
    rw [productTable_rat] at hholds hholds'
    have htables : (A * B).transpose = B.transpose * A.transpose := Matrix.transpose_mul A B
    obtain rfl : product.transpose = product' := hholds.transpose.eq (htables ▸ hholds')
    have hsize : b.cols * b.rows + b.rows * a.rows = a.rows * b.rows + b.rows * b.cols := by ring
    rw [hproduct, hproduct', hsize]
    rfl
  · have hover : UInt64.size ≤ a.rows * b.cols := Nat.le_of_not_lt hfits
    have hover' : UInt64.size ≤ b.transpose.rows * a.transpose.cols :=
      Nat.mul_comm a.rows b.cols ▸ hover
    rw [multiply_eq_overflow h hover, multiply_eq_overflow hswapped hover']
    rfl

theorem exists_multiply_iff :
    (∃ product, a.multiply b = .ok product) ↔ a.cols = b.rows ∧ a.rows * b.cols < UInt64.size := by
  by_cases h : a.cols = b.rows
  · rw [and_iff_right h]
    by_cases hfits : a.rows * b.cols < UInt64.size
    · obtain ⟨A, hA⟩ := exists_holds (m := a) rfl h
      obtain ⟨B, hB⟩ := exists_holds (m := b) rfl rfl
      obtain ⟨product, hproduct, -⟩ := multiply_holds hA hB hfits
      exact iff_of_true ⟨_, hproduct⟩ hfits
    · rw [multiply_eq_overflow h (Nat.le_of_not_lt hfits)]
      exact iff_of_false (fun ⟨_, hok⟩ => nomatch hok) hfits
  · rw [multiply_eq_error_of_ne h]
    exact iff_of_false (fun ⟨_, hok⟩ => nomatch hok) fun hboth => h hboth.1

end Product

/-- A list of rows makes a matrix exactly if it is rectangular and its entries can be counted in a
word, as those of any list in memory can. The matrix then has these rows, and its entries are
theirs. Every list that is not rectangular fails: for want of rows, for rows of different lengths,
or for empty ones. Every matrix makes itself again from its rows, from its transpose and from its
column-major form. Over the rationals the transpose of a product is the product of the transposes,
and there is a product exactly if the dimensions agree and the entries can be counted. -/
theorem rows_consistent :
    (∀ rows : List (List α),
      (∃ m, ofRows rows = .ok m) ↔ Rectangular rows ∧ rows.flatten.length < UInt64.size) ∧
    (∀ (rows : List (List α)) m, ofRows rows = .ok m →
      m.rows = rows.length ∧ (∀ row ∈ rows, row.length = m.cols) ∧ m.toRows = rows ∧
        (∀ i j, m.get? i j = rows[i]?.bind fun row => row[j]?) ∧ ∀ i, m.row? i = rows[i]?) ∧
    (∀ rows : List (List α), ¬ Rectangular rows → ∃ f, ofRows rows = .error f ∧
      (rows = [] ∧ f.kind = .emptyInput ∨
        Ragged rows ∧ f.kind = .dimensionMismatch ∨
        rows ≠ [] ∧ (∀ row ∈ rows, row = []) ∧ f.kind = .invalidArgument)) ∧
    (∀ m : DenseMatrix α, ofRows m.toRows = .ok m ∧
      (∀ i j, m.transpose.get? j i = m.get? i j) ∧ m.transpose.transpose = m ∧
        ofColumnMajor m.toColumnMajor = .ok m) ∧
    ∀ a b : DenseMatrix ℚ,
      ((∃ product, a.multiply b = .ok product) ↔
        a.cols = b.rows ∧ a.rows * b.cols < UInt64.size) ∧
      (a.cols = b.rows →
        (a.multiply b).map (Measured.map transpose) = b.transpose.multiply a.transpose) := by
  refine ⟨fun rows => exists_ofRows_iff, fun rows m hm => ?_,
    fun rows => ofRows_of_not_rectangular, fun m => ?_,
    fun a b => ⟨exists_multiply_iff, multiply_transpose⟩⟩
  · obtain ⟨A, hA, hrows⟩ := exists_holds_of_ofRows hm
    refine ⟨hA.rows_eq, fun row hrow => ?_, hA.toRows.trans hrows, hrows ▸ hA.get?_eq,
      hrows ▸ hA.row?_eq⟩
    rw [← hrows] at hrow
    exact length_of_mem_rowLists hrow
  · obtain ⟨A, hA⟩ := exists_holds (m := m) rfl rfl
    exact ⟨m.ofRows_toRows, hA.get?_transpose, hA.transpose_transpose,
      hA.ofColumnMajor_toColumnMajor⟩

theorem rows_consistent_wide :
    ∃ a b : DenseMatrix ℚ, ofRows [[1, 2, 3], [4, 5, 6]] = .ok a ∧
      ofRows [[1], [0], [2]] = .ok b ∧ ofRows a.toRows = .ok a ∧
      a.transpose.get? 2 1 = some 6 ∧ a.transpose.transpose = a ∧
      (∃ product, a.multiply b = .ok product) ∧
      (a.multiply b).map (Measured.map transpose) = b.transpose.multiply a.transpose := by
  obtain ⟨hmade, hrows, -, hlaws, hproduct⟩ := @rows_consistent ℚ
  obtain ⟨a, ha⟩ := (hmade [[1, 2, 3], [4, 5, 6]]).2 ⟨⟨by simp, 3, by decide, by simp⟩, by decide⟩
  obtain ⟨b, hb⟩ := (hmade [[1], [0], [2]]).2 ⟨⟨by simp, 1, by decide, by simp⟩, by decide⟩
  obtain ⟨harows, hacols, -, hentry, -⟩ := hrows _ a ha
  obtain ⟨hbrows, hbcols, -⟩ := hrows _ b hb
  have hcols : 3 = a.cols := hacols [1, 2, 3] (by simp)
  have hcol : 1 = b.cols := hbcols [1] (by simp)
  have hsize : a.cols = b.rows := by
    rw [← hcols, hbrows]
    rfl
  obtain ⟨hagain, htransposed, htwice, -⟩ := hlaws a
  obtain ⟨hmakes, hswapped⟩ := hproduct a b
  have hfits : a.rows * b.cols < UInt64.size := by
    rw [harows, ← hcol]
    decide
  refine ⟨a, b, ha, hb, hagain, ?_, htwice, hmakes.2 ⟨hsize, hfits⟩, hswapped hsize⟩
  rw [htransposed, hentry]
  rfl

end Reckon.DenseMatrix
