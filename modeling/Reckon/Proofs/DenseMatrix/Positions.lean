import Mathlib.LinearAlgebra.Matrix.RowCol
import Reckon.Proofs.DenseMatrix.Product

/-!
Matrices read and written position by position, with no entry outside the data. This
always succeeds and comes to what is said of the whole rows; a product whose entries
cannot be counted stops the program before any of them is written. What the entries are
worth is not described here.
-/

namespace Reckon

variable {α : Type} {r k c : Nat}

section Loops

variable {β σ : Type} {n : Nat}

theorem range_eq_ofFn (n : Nat) : List.range n = List.ofFn fun i : Fin n => i.val :=
  List.ext_getElem (by simp) fun k hk hk' => by simp

/-- A loop over the numbers below `n` whose rounds all give a result. -/
theorem mapM_range_eq_some {f : Nat → Option β} {g : Fin n → β}
    (h : ∀ i : Fin n, f i = some (g i)) : (List.range n).mapM f = some (List.ofFn g) := by
  rw [range_eq_ofFn]
  exact mapM_ofFn h

/-- A loop that goes from states to states, as seen by what the states encode. -/
theorem foldlM_range_eq_some (f : β → Nat → Option β) (g : σ → Fin n → σ) (encode : σ → β)
    (h : ∀ s (i : Fin n), f (encode s) i = some (encode (g s i))) (s : σ) :
    (List.range n).foldlM f (encode s) = some (encode ((List.finRange n).foldl g s)) := by
  rw [range_eq_ofFn, List.ofFn_eq_map, List.foldlM_map]
  induction List.finRange n generalizing s with
  | nil => rfl
  | cons i is ih => simp [List.foldlM_cons, h, ih]

theorem filterMap_of_mapM {γ : Type} {f : γ → Option β} {xs : List γ} {ys : List β}
    (h : xs.mapM f = some ys) : xs.filterMap f = ys := by
  have hfound := forall₂_of_mapM h
  clear h
  induction hfound with
  | nil => rfl
  | cons hy _ ih => rw [List.filterMap_cons_some hy, ih]

end Loops

/-- The entries from `start` up to `stop`, if the data reach that far. -/
def span? (data : List α) (start stop : Nat) : Option (List α) :=
  if start ≤ stop ∧ stop ≤ data.length then some ((data.take stop).drop start) else none

section Rows

variable {rows : List (List α)}

theorem take_flatten (h : ∀ row ∈ rows, row.length = c) (i : Nat) :
    rows.flatten.take (i * c) = (rows.take i).flatten := by
  induction rows generalizing i with
  | nil => simp
  | cons row rows ih =>
      obtain ⟨hrow, hrows⟩ := List.forall_mem_cons.1 h
      cases i with
      | zero => simp
      | succ i =>
          rw [List.flatten_cons, Nat.succ_mul, Nat.add_comm, ← hrow, List.take_length_add_append,
            hrow, ih hrows, List.take_succ_cons, List.flatten_cons]

theorem drop_flatten (h : ∀ row ∈ rows, row.length = c) (i : Nat) :
    rows.flatten.drop (i * c) = (rows.drop i).flatten := by
  induction rows generalizing i with
  | nil => simp
  | cons row rows ih =>
      obtain ⟨hrow, hrows⟩ := List.forall_mem_cons.1 h
      cases i with
      | zero => simp
      | succ i =>
          rw [List.flatten_cons, Nat.succ_mul, Nat.add_comm, ← hrow, List.drop_length_add_append,
            hrow, ih hrows, List.drop_succ_cons]

theorem span?_flatten (h : ∀ row ∈ rows, row.length = c) {i : Nat} (hi : i < rows.length) :
    span? rows.flatten (i * c) ((i + 1) * c) = some rows[i] := by
  have hstart : i * c ≤ (i + 1) * c := Nat.mul_le_mul_right c (Nat.le_succ i)
  have hstop : (i + 1) * c ≤ rows.length * c := Nat.mul_le_mul_right c hi
  have htake : ∀ row ∈ rows.take (i + 1), row.length = c := fun row hm =>
    h row (List.mem_of_mem_take hm)
  rw [span?, if_pos ⟨hstart, (length_flatten_of_forall h).symm ▸ hstop⟩, take_flatten h,
    drop_flatten htake, List.take_succ_eq_append_getElem hi,
    List.drop_left' (List.length_take_of_le hi.le), List.flatten_singleton]

theorem span?_rowLists (A : Matrix (Fin r) (Fin c) α) (i : Fin r) :
    span? (rowLists A).flatten (i * c) ((i + 1) * c) = some (List.ofFn (A i)) := by
  have hi : i.val < (rowLists A).length := by simp
  rw [span?_flatten (fun _ => length_of_mem_rowLists) hi]
  simp [rowLists]

/-- Replacing a row leaves what lies before and behind it. -/
theorem flatten_set (h : ∀ row ∈ rows, row.length = c) {i : Nat} (hi : i < rows.length)
    (row : List α) :
    (rows.set i row).flatten =
      rows.flatten.take (i * c) ++ row ++ rows.flatten.drop ((i + 1) * c) := by
  rw [take_flatten h, drop_flatten h, List.set_eq_take_append_cons_drop, if_pos hi,
    List.flatten_append, List.flatten_cons, List.append_assoc]

theorem rowLists_updateRow (A : Matrix (Fin r) (Fin c) α) (i : Fin r) (row : Fin c → α) :
    rowLists (A.updateRow i row) = (rowLists A).set i (List.ofFn row) := by
  refine List.ext_getElem (by simp) fun j hj hj' => ?_
  rw [List.getElem_set]
  split
  · rename_i hij
    subst hij
    simp [rowLists, Matrix.updateRow_self]
  · rename_i hij
    have hne : (⟨j, by simpa using hj⟩ : Fin r) ≠ i := fun h => hij (congrArg Fin.val h).symm
    simp only [rowLists, List.getElem_ofFn]
    exact congrArg List.ofFn (Matrix.updateRow_ne hne)

/-- Rounds for one row change that row only. -/
theorem foldl_updateRow_self {β : Type} (rounds : List β) (i : Fin r)
    (g : (Fin c → α) → β → Fin c → α) (C : Matrix (Fin r) (Fin c) α) :
    rounds.foldl (fun C l => C.updateRow i (g (C i) l)) C =
      C.updateRow i (rounds.foldl g (C i)) := by
  induction rounds generalizing C with
  | nil => exact (Matrix.updateRow_eq_self C i).symm
  | cons l rounds ih => simp [ih, Matrix.updateRow_self, Matrix.updateRow_idem]

/-- A loop over different rows changes each of them once. -/
theorem foldl_updateRow (is : List (Fin r)) (hnodup : is.Nodup)
    (g : Fin r → (Fin c → α) → Fin c → α) (C : Matrix (Fin r) (Fin c) α) (j : Fin r) :
    is.foldl (fun C i => C.updateRow i (g i (C i))) C j =
      if j ∈ is then g j (C j) else C j := by
  induction is generalizing C with
  | nil => rfl
  | cons i is ih =>
      obtain ⟨hi, hnodup⟩ := List.nodup_cons.1 hnodup
      rw [List.foldl_cons, ih hnodup]
      by_cases hj : j = i
      · subst hj
        simp [hi, Matrix.updateRow_self]
      · simp [hj]

end Rows

namespace DenseMatrix

/-- The entry at a position, whatever the shape. -/
def entryAt (m : DenseMatrix α) (i j : Nat) : Option α := m.data[m.position i j]?

/-- The row between two positions. -/
def rowAt (m : DenseMatrix α) (i : Nat) : Option (List α) :=
  span? m.data (m.position i 0) (m.position (i + 1) 0)

def rowsAt (m : DenseMatrix α) : Option (List (List α)) := (List.range m.rows).mapM m.rowAt

def diagonalAt (m : DenseMatrix α) : Option (List α) :=
  (List.range m.rows).mapM fun i => m.entryAt i i

/-- The data of the transpose, entry by entry. -/
def transposeAt (m : DenseMatrix α) : Option (List α) := do
  let columns ← (List.range m.cols).mapM fun j => (List.range m.rows).mapM fun i => m.entryAt i j
  return columns.flatten

section Kernels

variable [Scalar α]

/-- A multiple of a row added to the entries between two positions. -/
def accumulate? (data : List α) (start stop : Nat) (scale : α) (row : List α) :
    Option (List α) := do
  let target ← span? data start stop
  return data.take start ++ List.zipWith (fun o b => o + scale * b) target row ++ data.drop stop

/-- One round of a product: what entry `(i, l)` of the left factor adds to row `i`. -/
def multiplyRound (a b : DenseMatrix α) (data : List α) (i l : Nat) : Option (List α) := do
  let scale ← a.entryAt i l
  if Scalar.isZero scale then return data
  else
    let row ← b.rowAt l
    accumulate? data (i * b.cols) ((i + 1) * b.cols) scale row

def multiplyRow (a b : DenseMatrix α) (data : List α) (i : Nat) : Option (List α) :=
  (List.range a.cols).foldlM (fun data l => multiplyRound a b data i l) data

/-- The data of a product, accumulated in place. -/
def multiplyAt (a b : DenseMatrix α) : Option (List α) :=
  (List.range a.rows).foldlM (fun data i => multiplyRow a b data i)
    (List.replicate (a.rows * b.cols) Scalar.zero)

end Kernels

variable {m : DenseMatrix α} {A : Matrix (Fin r) (Fin c) α}

namespace Holds

theorem entryAt (h : m.Holds A) (i : Fin r) (j : Fin c) : m.entryAt i j = some (A i j) := by
  rw [DenseMatrix.entryAt, h.position_eq, h.data_eq, getElem?_flatten_rowLists]

theorem rowAt (h : m.Holds A) (i : Fin r) : m.rowAt i = some (List.ofFn (A i)) := by
  rw [DenseMatrix.rowAt, h.position_eq, h.position_eq, h.data_eq]
  exact span?_rowLists A i

theorem row? (h : m.Holds A) (i : Fin r) : m.row? i = m.rowAt i := by
  have hspan := h.rowAt i
  rw [h.rowAt, DenseMatrix.row?, if_pos (h.rows_eq.symm ▸ i.isLt)]
  rw [DenseMatrix.rowAt, span?, Option.ite_none_right_eq_some] at hspan
  rw [← hspan.2, List.drop_take, h.position_eq, h.position_eq, h.cols_eq, Nat.succ_mul,
    Nat.add_right_comm, Nat.add_sub_cancel_left]

theorem rowsAt (h : m.Holds A) : m.rowsAt = some (rowLists A) := by
  rw [DenseMatrix.rowsAt, h.rows_eq]
  exact mapM_range_eq_some h.rowAt

theorem transposeAt (h : m.Holds A) : m.transposeAt = some m.transpose.data := by
  have hcolumn (j : Fin c) : ((List.range r).mapM fun i => m.entryAt i j) =
      some (List.ofFn (A.transpose j)) := mapM_range_eq_some fun i => h.entryAt i j
  rw [DenseMatrix.transposeAt, h.rows_eq, h.cols_eq, mapM_range_eq_some hcolumn,
    h.transpose.data_eq]
  rfl

end Holds

section Product

variable [Scalar α] {a b : DenseMatrix α} {A : Matrix (Fin r) (Fin k) α}
  {B : Matrix (Fin k) (Fin c) α}

theorem accumulate?_rowLists (C : Matrix (Fin r) (Fin c) α) (i : Fin r)
    (scale : α) (row : Fin c → α) :
    accumulate? (rowLists C).flatten (i * c) ((i + 1) * c) scale (List.ofFn row) =
      some (rowLists (C.updateRow i fun j => C i j + scale * row j)).flatten := by
  have hi : i.val < (rowLists C).length := by simp
  rw [accumulate?, span?_rowLists, rowLists_updateRow,
    flatten_set (fun _ => length_of_mem_rowLists) hi]
  exact congrArg (fun entries => some (_ ++ entries ++ _)) (zipWith_ofFn _ _ _)

/-- A round changes one row, by a multiple of a row of the right factor. -/
theorem multiplyRound_rowLists (ha : a.Holds A) (hb : b.Holds B)
    (C : Matrix (Fin r) (Fin c) α) (i : Fin r) (l : Fin k) :
    multiplyRound a b (rowLists C).flatten i l =
      some (rowLists (C.updateRow i (combine (C i) (A i l) (B l)))).flatten := by
  rw [multiplyRound, ha.entryAt i l, hb.rowAt l, hb.cols_eq]
  by_cases hzero : Scalar.isZero (A i l)
  · simp [hzero, combine]
  · simp [hzero, combine, accumulate?_rowLists]

theorem multiplyRow_rowLists (ha : a.Holds A) (hb : b.Holds B)
    (C : Matrix (Fin r) (Fin c) α) (i : Fin r) :
    multiplyRow a b (rowLists C).flatten i =
      some (rowLists (C.updateRow i (combineRows (C i) (A i) B))).flatten := by
  have hloop := foldlM_range_eq_some (fun data l => multiplyRound a b data i l)
    (fun C l => C.updateRow i (combine (C i) (A i l) (B l))) (fun C => (rowLists C).flatten)
    (fun C l => multiplyRound_rowLists ha hb C i l) C
  have hrow := foldl_updateRow_self (List.finRange k) i (fun row l => combine row (A i l) (B l)) C
  rw [multiplyRow, ha.cols_eq, hloop, hrow]
  rfl

theorem multiplyAt_eq (ha : a.Holds A) (hb : b.Holds B) :
    multiplyAt a b = some (rowLists (productTable A B)).flatten := by
  have hstart : List.replicate (r * c) Scalar.zero =
      (rowLists (.of fun _ _ => Scalar.zero : Matrix (Fin r) (Fin c) α)).flatten := by
    rw [flatten_rowLists, ← List.ofFn_const]
    rfl
  have hloop := foldlM_range_eq_some (multiplyRow a b)
    (fun C i => C.updateRow i (combineRows (C i) (A i) B)) (fun C => (rowLists C).flatten)
    (multiplyRow_rowLists ha hb) (.of fun _ _ => Scalar.zero)
  rw [multiplyAt, ha.rows_eq, hb.cols_eq, hstart, hloop]
  have htable : (List.finRange r).foldl (fun C i => C.updateRow i (combineRows (C i) (A i) B))
      (.of fun _ _ => Scalar.zero) = productTable A B := by
    ext i j
    -- a row is touched in its own round of the outer loop only
    have hrow := foldl_updateRow (List.finRange r) (List.nodup_finRange r)
      (fun i row => combineRows row (A i) B) (.of fun _ _ => Scalar.zero) i
    rw [hrow, if_pos (List.mem_finRange i)]
    rfl
  exact congrArg (fun C => some (rowLists C).flatten) htable

end Product

theorem isSome_get? (m : DenseMatrix α) (i j : Nat) :
    (m.get? i j).isSome ↔ i < m.rows ∧ j < m.cols := by
  obtain ⟨A, hA⟩ := exists_holds (m := m) rfl rfl
  by_cases hin : i < m.rows ∧ j < m.cols
  · exact iff_of_true (by rw [hA.get? ⟨i, hin.1⟩ ⟨j, hin.2⟩]; rfl) hin
  · exact iff_of_false (by simp [get?, hin]) hin

theorem trace_eq_sum_diagonal [Scalar α] {m : DenseMatrix α} (hsquare : m.isSquare) :
    ∃ diagonal, m.diagonalAt = some diagonal ∧
      m.trace = .ok ⟨Scalar.sum diagonal, m.data.length⟩ := by
  have hcols : m.cols = m.rows := (beq_iff_eq.1 hsquare).symm
  obtain ⟨A, hA⟩ := exists_holds (m := m) rfl hcols
  have hdiagonal : (List.range m.rows).mapM (fun i => m.get? i i) =
      some (List.ofFn fun i => A i i) := mapM_range_eq_some fun i => hA.get? i i
  refine ⟨_, mapM_range_eq_some fun i => hA.entryAt i i, ?_⟩
  rw [trace, LuFactors.requireSquare, if_pos hsquare, ok_bind, filterMap_of_mapM hdiagonal]
  rfl

end DenseMatrix
end Reckon
