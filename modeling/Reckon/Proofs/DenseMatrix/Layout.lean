import Mathlib.Data.List.OfFn
import Mathlib.LinearAlgebra.Matrix.Defs
import Reckon.DenseMatrix.Basic
import Reckon.Proofs.Failure

/-!
Matrices as data and as tables. The data of a matrix are the rows of a table, one behind
the other; shape, entries, rows, transpose and the column-major form are read off that
table. Every matrix stands for a table, and a table for a matrix if its entries can be
counted in a word.
-/

namespace Reckon

variable {α : Type} {r c : Nat}

theorem zipWith_ofFn {α β γ : Type} {n : Nat} (g : α → β → γ) (u : Fin n → α) (v : Fin n → β) :
    List.zipWith g (List.ofFn u) (List.ofFn v) = List.ofFn fun i => g (u i) (v i) :=
  List.ext_getElem (by simp) fun k hk hk' => by simp

theorem mapM_ofFn {α β : Type} {n : Nat} {f : α → Option β} {v : Fin n → α} {w : Fin n → β}
    (h : ∀ i, f (v i) = some (w i)) : (List.ofFn v).mapM f = some (List.ofFn w) := by
  induction n with
  | zero => rfl
  | succ n ih =>
      rw [List.ofFn_succ, List.ofFn_succ, List.mapM_cons, h 0, ih fun i => h i.succ]
      rfl

/-- What a loop finds, it finds for one element after the other. -/
theorem forall₂_of_mapM {α β : Type} {f : α → Option β} {xs : List α} {ys : List β}
    (h : xs.mapM f = some ys) : List.Forall₂ (fun x y => f x = some y) xs ys := by
  induction xs generalizing ys with
  | nil =>
      cases h
      exact .nil
  | cons x xs ih =>
      rw [List.mapM_cons] at h
      obtain ⟨y, hy, h⟩ := Option.bind_eq_some_iff.1 h
      obtain ⟨rest, hrest, h⟩ := Option.bind_eq_some_iff.1 h
      cases h
      exact .cons hy (ih hrest)

theorem length_flatten_of_forall {rows : List (List α)} (h : ∀ row ∈ rows, row.length = c) :
    rows.flatten.length = rows.length * c := by
  rw [List.length_flatten, List.map_congr_left h, List.map_const', List.sum_replicate_nat]

/-- The rows of a table as lists. -/
def rowLists (A : Matrix (Fin r) (Fin c) α) : List (List α) :=
  List.ofFn fun i => List.ofFn (A i)

@[simp] theorem length_rowLists (A : Matrix (Fin r) (Fin c) α) : (rowLists A).length = r := by
  simp [rowLists]

theorem rowLists_succ (A : Matrix (Fin (r + 1)) (Fin c) α) :
    rowLists A = List.ofFn (A 0) :: List.ofFn fun i : Fin r => List.ofFn (A i.succ) := by
  rw [rowLists, List.ofFn_succ]

theorem length_of_mem_rowLists {A : Matrix (Fin r) (Fin c) α} {row : List α}
    (h : row ∈ rowLists A) : row.length = c := by
  obtain ⟨i, rfl⟩ := List.mem_ofFn.1 h
  simp

theorem flatten_rowLists (A : Matrix (Fin r) (Fin c) α) :
    (rowLists A).flatten = List.ofFn fun k : Fin (r * c) => A k.divNat k.modNat := by
  rw [List.ofFn_mul]
  refine congrArg List.flatten (congrArg List.ofFn (funext fun i => congrArg List.ofFn ?_))
  funext j
  have hc : 0 < c := j.pos
  congr 1
  · ext
    simp [Fin.divNat, Nat.add_comm _ j.val, Nat.add_mul_div_right _ _ hc]
  · ext
    simp [Fin.modNat, Nat.mod_eq_of_lt]

theorem length_flatten_rowLists (A : Matrix (Fin r) (Fin c) α) :
    (rowLists A).flatten.length = r * c := by
  rw [length_flatten_of_forall fun _ => length_of_mem_rowLists, length_rowLists]

theorem position_lt {i j : Nat} (hi : i < r) (hj : j < c) : i * c + j < r * c :=
  calc
    i * c + j < (i + 1) * c := by rw [Nat.succ_mul]; omega
    _ ≤ r * c := Nat.mul_le_mul_right c hi

theorem getElem?_flatten_rowLists (A : Matrix (Fin r) (Fin c) α) (i : Fin r) (j : Fin c) :
    (rowLists A).flatten[i.val * c + j.val]? = some (A i j) := by
  have hc : 0 < c := j.pos
  rw [flatten_rowLists, List.getElem?_eq_getElem (by simpa using position_lt i.isLt j.isLt),
    List.getElem_ofFn]
  congr 2
  · ext
    simp [Fin.divNat, Nat.add_comm _ j.val, Nat.add_mul_div_right _ _ hc]
  · ext
    simp [Fin.modNat, Nat.mod_eq_of_lt]

theorem entryCount?_eq_some {rows cols count : Nat} :
    entryCount? rows cols = some count ↔ rows * cols < UInt64.size ∧ rows * cols = count := by
  simp [entryCount?]

section Counted

variable {β : Type} {rows cols : Nat} {work : Nat → Except Failure β}

theorem counted_of_lt (h : rows * cols < UInt64.size) :
    counted rows cols work = (work (rows * cols)).mapError .failure := by
  rw [counted, entryCount?_eq_some.2 ⟨h, rfl⟩]

theorem counted_of_le (h : UInt64.size ≤ rows * cols) :
    counted rows cols work = .error .overflow := by
  rw [counted, entryCount?, if_neg (Nat.not_lt.2 h)]

theorem counted_eq_ok {b : β} :
    counted rows cols work = .ok b ↔ rows * cols < UInt64.size ∧ work (rows * cols) = .ok b := by
  by_cases h : rows * cols < UInt64.size
  · rw [counted_of_lt h, and_iff_right h]
    cases work (rows * cols) <;> simp
  · rw [counted_of_le (Nat.le_of_not_lt h)]
    exact iff_of_false nofun fun hok => h hok.1

theorem counted_eq_overflow :
    counted rows cols work = .error .overflow ↔ UInt64.size ≤ rows * cols := by
  by_cases h : rows * cols < UInt64.size
  · rw [counted_of_lt h]
    exact iff_of_false (by cases work (rows * cols) <;> simp) (Nat.not_le.2 h)
  · exact iff_of_true (counted_of_le (Nat.le_of_not_lt h)) (Nat.le_of_not_lt h)

end Counted

namespace DenseMatrix

theorem fits (m : DenseMatrix α) : m.rows * m.cols < UInt64.size :=
  (entryCount?_eq_some.1 m.length_data).1

/-- There are as many entries as the shape says. -/
theorem length_eq (m : DenseMatrix α) : m.data.length = m.rows * m.cols :=
  (entryCount?_eq_some.1 m.length_data).2.symm

theorem pieces_flatten {rows : List (List α)} (h : ∀ row ∈ rows, row.length = c) :
    pieces c rows.length rows.flatten = rows := by
  induction rows with
  | nil => rfl
  | cons row rows ih =>
      obtain ⟨hrow, hrows⟩ := List.forall_mem_cons.1 h
      rw [List.length_cons, pieces, List.flatten_cons, ← hrow, List.take_left, List.drop_left, hrow,
        ih hrows]

theorem pieces_rowLists (A : Matrix (Fin r) (Fin c) α) :
    pieces c r (rowLists A).flatten = rowLists A := by
  have h : pieces c (rowLists A).length (rowLists A).flatten = rowLists A :=
    pieces_flatten fun _ => length_of_mem_rowLists
  rwa [length_rowLists] at h

/-- Going through a table by its columns is going through its transpose by the rows. -/
theorem byColumns_rowLists (A : Matrix (Fin r) (Fin c) α) :
    byColumns r c (rowLists A).flatten = (rowLists A.transpose).flatten := by
  have hlength : (byColumns r c (rowLists A).flatten).length = r * c := by
    rw [byColumns, List.length_mapIdx, length_flatten_rowLists]
  have hlength' : (rowLists A.transpose).flatten.length = c * r := length_flatten_rowLists _
  refine List.ext_getElem (by rw [hlength, hlength', Nat.mul_comm]) fun k hk hk' => ?_
  rw [hlength] at hk
  have hr : 0 < r := Nat.pos_of_mul_pos_right (Nat.zero_lt_of_lt hk)
  have hcol : k / r < c := Nat.div_lt_of_lt_mul hk
  have hentry := getElem?_flatten_rowLists A ⟨k % r, Nat.mod_lt k hr⟩ ⟨k / r, hcol⟩
  have hentry' := getElem?_flatten_rowLists A.transpose ⟨k / r, hcol⟩ ⟨k % r, Nat.mod_lt k hr⟩
  rw [Nat.div_add_mod'] at hentry'
  simp only [byColumns, List.getElem_mapIdx, Array.getD_eq_getD_getElem?, List.getElem?_toArray,
    hentry, Option.getD_some]
  exact (Option.some.inj ((List.getElem?_eq_getElem hk').symm.trans hentry')).symm

/-- The matrix stands for the table. -/
structure Holds (m : DenseMatrix α) (A : Matrix (Fin r) (Fin c) α) : Prop where
  rows_eq : m.rows = r
  cols_eq : m.cols = c
  data_eq : m.data = (rowLists A).flatten

variable {m m' : DenseMatrix α} {A : Matrix (Fin r) (Fin c) α}

namespace Holds

theorem rows_pos (h : m.Holds A) : 0 < r := h.rows_eq ▸ m.rows_pos

theorem cols_pos (h : m.Holds A) : 0 < c := h.cols_eq ▸ m.cols_pos

theorem length_data (h : m.Holds A) : m.data.length = r * c := by
  rw [h.data_eq, length_flatten_rowLists]

theorem fits (h : m.Holds A) : r * c < UInt64.size := by
  rw [← h.rows_eq, ← h.cols_eq]
  exact m.fits

theorem eq (h : m.Holds A) (h' : m'.Holds A) : m = m' := by
  obtain ⟨hr, hc, hd⟩ := h
  obtain ⟨hr', hc', hd'⟩ := h'
  cases m
  cases m'
  simp_all

theorem toRows (h : m.Holds A) : m.toRows = rowLists A := by
  have hcount : (r * c + c - 1) / c = r := by
    rw [Nat.add_sub_assoc h.cols_pos, Nat.mul_comm, Nat.mul_add_div h.cols_pos,
      Nat.div_eq_of_lt (Nat.sub_lt h.cols_pos Nat.one_pos), Nat.add_zero]
  rw [DenseMatrix.toRows, h.length_data, h.cols_eq, hcount, h.data_eq, pieces_rowLists]

theorem position_eq (h : m.Holds A) (i j : Nat) : m.position i j = i * c + j := by
  rw [position, h.cols_eq]

theorem get? (h : m.Holds A) (i : Fin r) (j : Fin c) : m.get? i j = some (A i j) := by
  rw [DenseMatrix.get?, if_pos ⟨h.rows_eq.symm ▸ i.isLt, h.cols_eq.symm ▸ j.isLt⟩,
    h.position_eq, h.data_eq, getElem?_flatten_rowLists]

theorem transpose (h : m.Holds A) : m.transpose.Holds A.transpose where
  rows_eq := h.cols_eq
  cols_eq := h.rows_eq
  data_eq := by
    have hdata : m.transpose.data = byColumns m.rows m.cols m.data := rfl
    rw [hdata, h.rows_eq, h.cols_eq, h.data_eq, byColumns_rowLists]

/-- The columns of the column-major form are those of the table. -/
theorem toColumnMajor (h : m.Holds A) :
    m.toColumnMajor = .ofColumns r (rowLists A.transpose) := by
  rw [DenseMatrix.toColumnMajor, ColumnMajor.ofColumns, h.rows_eq, h.cols_eq, h.data_eq,
    byColumns_rowLists, length_rowLists]

end Holds

theorem transpose_ofColumns (A : Matrix (Fin r) (Fin c) α) :
    (ColumnMajor.ofColumns r (rowLists A.transpose)).transpose =
      .ofColumns c (rowLists A) := by
  simp only [ColumnMajor.ofColumns, ColumnMajor.transpose, length_rowLists, byColumns_rowLists,
    Matrix.transpose_transpose]

theorem columns_ofColumns (A : Matrix (Fin r) (Fin c) α) :
    (ColumnMajor.ofColumns c (rowLists A)).columns = rowLists A := by
  simp only [ColumnMajor.ofColumns, ColumnMajor.columns, length_rowLists, pieces_rowLists]

theorem ofData_eq_ok {rows cols : Nat} {data : List α} :
    ofData rows cols data = .ok m ↔ m.rows = rows ∧ m.cols = cols ∧ m.data = data := by
  unfold ofData
  constructor
  · intro h
    split at h
    · split at h
      · cases h
        exact ⟨rfl, rfl, rfl⟩
      · cases h
    · cases h
  · rintro ⟨rfl, rfl, rfl⟩
    rw [dif_pos ⟨m.rows_pos, m.cols_pos⟩, dif_pos m.length_data]

theorem exists_ofData_iff {rows cols : Nat} {data : List α} :
    (∃ m, ofData rows cols data = .ok m) ↔
      (0 < rows ∧ 0 < cols) ∧ data.length = rows * cols ∧ rows * cols < UInt64.size := by
  constructor
  · rintro ⟨m, hm⟩
    obtain ⟨rfl, rfl, rfl⟩ := ofData_eq_ok.1 hm
    exact ⟨⟨m.rows_pos, m.cols_pos⟩, m.length_eq, m.fits⟩
  · rintro ⟨⟨hr, hc⟩, hd, hfits⟩
    have hcount : entryCount? rows cols = some data.length := entryCount?_eq_some.2 ⟨hfits, hd.symm⟩
    exact ⟨⟨rows, cols, data, hr, hc, hcount⟩, ofData_eq_ok.2 ⟨rfl, rfl, rfl⟩⟩

theorem new_eq_ok {rows cols : Nat} {data : List α} :
    new rows cols data = .ok m ↔ m.rows = rows ∧ m.cols = cols ∧ m.data = data := by
  rw [new, counted_eq_ok, ofData_eq_ok, and_iff_right_iff_imp]
  rintro ⟨rfl, rfl, -⟩
  exact m.fits

theorem exists_new_iff {rows cols : Nat} {data : List α} :
    (∃ m, new rows cols data = .ok m) ↔
      (0 < rows ∧ 0 < cols) ∧ data.length = rows * cols ∧ rows * cols < UInt64.size := by
  rw [← exists_ofData_iff]
  exact exists_congr fun m => new_eq_ok.trans ofData_eq_ok.symm

/-- The matrix of a table is made from its rows, where their entries can be counted. -/
theorem exists_holds_of_fits (A : Matrix (Fin r) (Fin c) α) (hr : 0 < r) (hc : 0 < c)
    (h : r * c < UInt64.size) :
    ∃ m, ofData r c (rowLists A).flatten = .ok m ∧ m.Holds A := by
  obtain ⟨m, hm⟩ := exists_ofData_iff.2 ⟨⟨hr, hc⟩, length_flatten_rowLists A, h⟩
  obtain ⟨hrows, hcols, hdata⟩ := ofData_eq_ok.1 hm
  exact ⟨m, hm, hrows, hcols, hdata⟩

/-- Every matrix stands for a table. -/
theorem exists_holds (hr : m.rows = r) (hc : m.cols = c) :
    ∃ A : Matrix (Fin r) (Fin c) α, m.Holds A := by
  have hlength : m.data.length = r * c := by rw [m.length_eq, hr, hc]
  have hlt (i : Fin r) (j : Fin c) : i.val * c + j.val < m.data.length :=
    hlength ▸ position_lt i.isLt j.isLt
  refine ⟨.of fun i j => m.data.get ⟨i.val * c + j.val, hlt i j⟩, hr, hc, ?_⟩
  rw [flatten_rowLists]
  refine List.ext_getElem (hlength.trans (List.length_ofFn ..).symm) fun k hk hk' => ?_
  simp [Fin.divNat, Fin.modNat, Nat.div_add_mod']

end DenseMatrix
end Reckon
