import Reckon.Proofs.DenseMatrix.Shapes

/-!
Sequences of calls that make matrices, each from numbers or from matrices made before. A call may
fail, and one whose sizes overflow is the last. Whatever has been made has the shape that its call
asked for and all entries of that shape, and nothing reads or writes outside of them. What the
entries are is described elsewhere.
-/

namespace Reckon.DenseMatrix

variable {α : Type}

/-- Shape and entries agree, and whatever is read or written position by position lies within the
data and comes to what is said of the whole. Columns that solve for an inverse fill the shape. -/
structure Consistent [Scalar α] (m : DenseMatrix α) : Prop where
  length_data : m.data.length = m.rows * m.cols
  entry (i j : Nat) : (m.get? i j).isSome ↔ i < m.rows ∧ j < m.cols
  row (i : Nat) : i < m.rows → (m.rowAt i).isSome ∧ m.row? i = m.rowAt i
  rows : m.rowsAt = some m.toRows
  transpose : m.transposeAt = some m.transpose.data
  trace : m.isSquare → ∃ diagonal, m.diagonalAt = some diagonal ∧
    m.trace = .ok ⟨Scalar.sum diagonal, m.data.length⟩
  multiply (b : DenseMatrix α) : m.cols = b.rows → m.rows * b.cols < UInt64.size →
    ∃ product, m.multiply b = .ok product ∧ m.multiplyAt b = some product.value.data
  inverse (lu : LuFactors α) (columns : ColumnMajor α) : LuFactors.ofMatrix m = .ok lu →
    lu.inverseColumns = some columns →
    ∃ inv, ofColumnMajor columns = .ok inv ∧ inv.shape = m.shape

theorem consistent [Scalar α] (m : DenseMatrix α) : m.Consistent := by
  obtain ⟨A, hA⟩ := exists_holds (m := m) rfl rfl
  refine ⟨m.length_eq, m.isSome_get?, fun i hi => ?_, ?_, hA.transposeAt, trace_eq_sum_diagonal,
    fun b hcols hfits => ?_, fun lu columns hlu hcolumns => exists_ofColumnMajor hlu hcolumns⟩
  · rw [hA.row? ⟨i, hi⟩, hA.rowAt ⟨i, hi⟩]
    exact ⟨rfl, rfl⟩
  · rw [hA.rowsAt, hA.toRows]
  · obtain ⟨B, hB⟩ := exists_holds (m := b) hcols.symm rfl
    obtain ⟨product, hproduct, hholds⟩ := multiply_holds hA hB hfits
    exact ⟨_, hproduct, by rw [multiplyAt_eq hA hB, hholds.data_eq]⟩

/-- A call that makes a matrix. Its operands are counted among the matrices made before. -/
inductive Call (α : Type) where
  | new (rows cols : Nat) (data : List α)
  | fromRows (rows : List (List α))
  | identity (n : Nat)
  | zeros (rows cols : Nat)
  | transpose (operand : Nat)
  | multiply (left right : Nat)
  | inverse (operand : Nat)
  | luInverse (operand : Nat)

namespace Call

/-- The shape that a call asks for, if its operands have been made. -/
def shape? (made : List (DenseMatrix α)) : Call α → Option (Nat × Nat)
  | new rows cols _ | zeros rows cols => some (rows, cols)
  | fromRows rows => rows.head?.map fun row => (rows.length, row.length)
  | identity n => some (n, n)
  | transpose operand => made[operand]?.map fun m => (m.cols, m.rows)
  | multiply left right => do return ((← made[left]?).rows, (← made[right]?).cols)
  | inverse operand | luInverse operand => made[operand]?.map DenseMatrix.shape

variable [Scalar α]

/-- What a call comes to, if its operands have been made. -/
def result? (made : List (DenseMatrix α)) : Call α → Option (Except Stop (DenseMatrix α))
  | new rows cols data => some (DenseMatrix.new rows cols data)
  | fromRows rows => some ((ofRows rows).mapError .failure)
  | identity n => some (DenseMatrix.identity n)
  | zeros rows cols => some (DenseMatrix.zeros rows cols)
  | transpose operand => made[operand]?.map fun m => .ok m.transpose
  | multiply left right => do return (← made[left]?).multiply (← made[right]?) |>.map (·.value)
  | inverse operand => made[operand]?.map fun m => (m.inverse.map (·.value)).mapError .failure
  | luInverse operand =>
    made[operand]?.map fun m => (LuFactors.ofMatrix m >>= LuFactors.inverse).mapError .failure

end Call

section Shapes

variable {m : DenseMatrix α}

theorem shape_of_ofData {rows cols : Nat} {data : List α} (h : ofData rows cols data = .ok m) :
    m.shape = (rows, cols) := by
  obtain ⟨rfl, rfl, -⟩ := ofData_eq_ok.1 h
  rfl

theorem shape_of_ofRows {rows : List (List α)} (h : ofRows rows = .ok m) :
    rows.head?.map (fun row => (rows.length, row.length)) = some m.shape := by
  cases rows with
  | nil => cases h
  | cons row rows =>
      rw [ofRows] at h
      split at h
      · cases h
      · rw [shape_of_ofData h]
        rfl

variable [Scalar α]

theorem shape_of_multiply {a b : DenseMatrix α} {product : Measured (DenseMatrix α)}
    (h : a.multiply b = .ok product) : product.value.shape = (a.rows, b.cols) := by
  rw [multiply] at h
  split at h
  · cases h
  · obtain ⟨_, -, h⟩ := bind_eq_ok.1 h
    obtain ⟨_, hproduct, h⟩ := bind_eq_ok.1 h
    cases h
    exact shape_of_ofData (counted_eq_ok.1 hproduct).2

theorem shape_of_luInverse {lu : LuFactors α} (hlu : LuFactors.ofMatrix m = .ok lu)
    {inv : DenseMatrix α} (h : lu.inverse = .ok inv) : inv.shape = m.shape := by
  rw [LuFactors.inverse] at h
  split at h
  · rename_i columns hcolumns
    obtain ⟨inv', hinv, hshape⟩ := exists_ofColumnMajor hlu hcolumns
    cases hinv.symm.trans h
    exact hshape
  · cases h

theorem shape_of_inverse {inv : Measured (DenseMatrix α)} (h : m.inverse = .ok inv) :
    inv.value.shape = m.shape := by
  obtain ⟨_, -, h⟩ := bind_eq_ok.1 h
  obtain ⟨lu, hlu, h⟩ := bind_eq_ok.1 h
  split at h
  · cases h
  · obtain ⟨_, hinv, h⟩ := bind_eq_ok.1 h
    cases h
    exact shape_of_luInverse hlu hinv

/-- Whatever call makes a matrix, its shape is the one that was asked for. -/
theorem Call.shape_of_result {made : List (DenseMatrix α)} {call : Call α}
    (h : call.result? made = some (.ok m)) : call.shape? made = some m.shape := by
  cases call with
  | new | zeros | identity =>
      exact congrArg some (shape_of_ofData (counted_eq_ok.1 (Option.some.inj h)).2).symm
  | fromRows rows => exact shape_of_ofRows (mapError_eq_ok.1 (Option.some.inj h))
  | transpose operand =>
      obtain ⟨a, ha, h⟩ := Option.map_eq_some_iff.1 h
      cases h
      exact congrArg (Option.map _) ha
  | multiply left right =>
      obtain ⟨a, ha, h⟩ := Option.bind_eq_some_iff.1 h
      obtain ⟨b, hb, h⟩ := Option.bind_eq_some_iff.1 h
      obtain ⟨product, hproduct, rfl⟩ := map_eq_ok.1 (Option.some.inj h)
      simp [shape?, ha, hb, shape_of_multiply hproduct]
  | inverse operand =>
      obtain ⟨a, ha, h⟩ := Option.map_eq_some_iff.1 h
      obtain ⟨inv, hinv, rfl⟩ := map_eq_ok.1 (mapError_eq_ok.1 h)
      simp [shape?, ha, shape_of_inverse hinv]
  | luInverse operand =>
      obtain ⟨a, ha, h⟩ := Option.map_eq_some_iff.1 h
      obtain ⟨lu, hlu, hinv⟩ := bind_eq_ok.1 (mapError_eq_ok.1 h)
      simp [shape?, ha, shape_of_luInverse hlu hinv]

end Shapes

section Run

variable [Scalar α]

/-- The matrices made when calls have been carried out, behind those made before. A call that
fails, or whose operands have not been made, makes none, and an overflow ends the program. -/
def run : List (DenseMatrix α) → List (Call α) → List (DenseMatrix α)
  | made, [] => made
  | made, call :: calls =>
    match call.result? made with
    | some (.ok m) => run (made ++ [m]) calls
    | some (.error .overflow) => made
    | some (.error (.failure _)) | none => run made calls

/-- Every matrix is from before or was made by a call that succeeded. -/
theorem exists_call_of_mem_run {made : List (DenseMatrix α)} {calls : List (Call α)}
    {m : DenseMatrix α} (h : m ∈ run made calls) :
    m ∈ made ∨ ∃ before call, before ++ [call] <+: calls ∧
      call.result? (run made before) = some (.ok m) := by
  induction calls generalizing made with
  | nil => exact .inl h
  | cons call calls ih =>
      -- what holds behind the first call holds of the whole sequence
      have hlater (now : List (DenseMatrix α))
          (hnow : ∀ before, run made (call :: before) = run now before)
          (hm : ∃ before call', before ++ [call'] <+: calls ∧
            call'.result? (run now before) = some (.ok m)) :
          ∃ before call', before ++ [call'] <+: call :: calls ∧
            call'.result? (run made before) = some (.ok m) := by
        obtain ⟨before, call', hprefix, hresult⟩ := hm
        exact ⟨call :: before, call', List.prefix_cons_inj call |>.2 hprefix, hnow before ▸ hresult⟩
      rw [run] at h
      split at h
      · rename_i m' hresult
        obtain hm | hm := ih h
        · obtain hm | hm := List.mem_append.1 hm
          · exact .inl hm
          · obtain rfl := List.mem_singleton.1 hm
            exact .inr ⟨[], call, by simp, hresult⟩
        · exact .inr (hlater (made ++ [m']) (fun before => by rw [run, hresult]) hm)
      · exact .inl h
      · rename_i f hresult
        exact (ih h).imp_right (hlater made fun before => by rw [run, hresult])
      · rename_i hresult
        exact (ih h).imp_right (hlater made fun before => by rw [run, hresult])

end Run

/-- Every matrix that calls make comes from a call that succeeded and has the shape it asked for,
with rows and columns and as many entries as that; rows, transposes, traces, products, inverses and
the text come from within the data, and there is an entry exactly within the shape. Data are made a
matrix exactly if they are as many as the shape says, and an overflow of the sizes ends the
program. -/
theorem run_consistent (calls : List (Call Binary64)) :
    (∀ m ∈ run [] calls,
      (∃ before call, before ++ [call] <+: calls ∧
        call.result? (run [] before) = some (.ok m) ∧
        call.shape? (run [] before) = some m.shape) ∧
      0 < m.rows ∧ 0 < m.cols ∧ m.Consistent ∧
      m.rowsAt.map (bracket (bracket Decimal.plainChars)) = some m.print) ∧
    ∀ rows cols (data : List Binary64),
      ((∃ m, new rows cols data = .ok m) ↔
        (0 < rows ∧ 0 < cols) ∧ data.length = rows * cols ∧ rows * cols < UInt64.size) ∧
      (new rows cols data = .error .overflow ↔ UInt64.size ≤ rows * cols) := by
  refine ⟨fun m hm => ⟨?_, m.rows_pos, m.cols_pos, m.consistent, ?_⟩,
    fun rows cols data => ⟨exists_new_iff, counted_eq_overflow⟩⟩
  · obtain hm | ⟨before, call, hprefix, hresult⟩ := exists_call_of_mem_run hm
    · cases hm
    · exact ⟨before, call, hprefix, hresult, Call.shape_of_result hresult⟩
  · rw [m.consistent.rows]
    rfl

/-- Two columns are refused a third entry, and a shape that overflows is the end: the identity
behind it is not made. -/
theorem run_consistent_overflow :
    ∃ m m' : DenseMatrix Binary64,
      run [] [.new 1 2 [3, 4], .new 1 2 [3, 4, 5], .transpose 0,
        .new 4294967296 4294967296 [], .identity 1] = [m, m'] ∧
      m'.shape = (2, 1) ∧ m'.Consistent ∧
      new 4294967296 4294967296 ([] : List Binary64) = .error .overflow := by
  obtain ⟨hmade, hnew⟩ := run_consistent [.new 1 2 [3, 4], .new 1 2 [3, 4, 5], .transpose 0,
    .new 4294967296 4294967296 [], .identity 1]
  let m : DenseMatrix Binary64 := ⟨1, 2, [3, 4], by decide, by decide, by decide⟩
  have hrun : run [] [.new 1 2 [3, 4], .new 1 2 [3, 4, 5], .transpose 0,
      .new 4294967296 4294967296 [], .identity 1] = [m, m.transpose] := rfl
  obtain ⟨-, -, -, hconsistent, -⟩ := hmade m.transpose (by rw [hrun]; simp)
  exact ⟨m, m.transpose, hrun, rfl, hconsistent, (hnew _ _ _).2.2 (by decide)⟩

end Reckon.DenseMatrix
