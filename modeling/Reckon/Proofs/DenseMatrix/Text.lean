import Reckon.Proofs.DenseMatrix.Determinant
import Reckon.Proofs.DenseMatrix.Rows
import Reckon.Proofs.Expr.Readable

/-!
The text of a matrix as input. It is the text of a list of its rows, and so it is read, within
the bounds on nesting and height, and evaluated back to the rows, bit for bit. They make the
matrix again.
-/

namespace Reckon.Expr

/-- Rows as a list of lists of numbers. -/
def matrixLiteral (rows : List (List Binary64)) : Expr :=
  list (rows.map fun row => list (row.map number))

section Literals

variable {rows : List (List Binary64)}

theorem printItems_eq_intercalate (es : List Expr) :
    printItems es = [',', ' '].intercalate (es.map print) := by
  induction es with
  | nil => rfl
  | cons e es ih =>
      cases es with
      | nil => simp [printItems]
      | cons e' es =>
          rw [printItems_cons_cons, ih]
          simp

theorem print_matrixLiteral (rows : List (List Binary64)) :
    (matrixLiteral rows).print =
      DenseMatrix.bracket (DenseMatrix.bracket Decimal.plainChars) rows := by
  have hprint : print ∘ number = Decimal.plainChars := rfl
  have hrow : (print ∘ fun row => list (row.map number)) =
      DenseMatrix.bracket Decimal.plainChars := by
    funext row
    rw [Function.comp_apply, print, printItems_eq_intercalate, List.map_map, hprint]
    rfl
  rw [matrixLiteral, print, printItems_eq_intercalate, List.map_map, hrow]
  rfl

theorem printable_matrixLiteral (h : ∀ row ∈ rows, ∀ x ∈ row, x.isFinite) :
    (matrixLiteral rows).Printable := by
  rw [matrixLiteral, printable_list, List.forall_mem_map]
  intro row hrow
  rw [printable_list, List.forall_mem_map]
  exact fun x hx => printable_number.2 (h row hrow x hx)

theorem heights_le {es : List Expr} {n : Nat} : heights es ≤ n ↔ ∀ e ∈ es, e.height ≤ n := by
  induction es with
  | nil => simp [heights]
  | cons e es ih => rw [heights, Nat.max_le, ih, List.forall_mem_cons]

theorem nesting_signedNumber_le (x : Binary64) : (signedNumber x).nesting ≤ 1 := by
  unfold signedNumber
  split
  · have hstrength : negStrength ≤ (number x.abs).strength := by
      simp [strength, Binary64.abs, Binary64.isNegative_ofMagnitude false x.magnitude_lt,
        negStrength]
    rw [nesting, enclosed_of_le hstrength, nesting]
  · exact Nat.zero_le 1

theorem height_signedNumber_le (x : Binary64) : (signedNumber x).height ≤ 2 := by
  unfold signedNumber
  split
  · exact Nat.le_refl 2
  · exact Nat.le_succ 1

theorem signed_matrixLiteral (rows : List (List Binary64)) :
    (matrixLiteral rows).signed = list (rows.map fun row => list (row.map signedNumber)) := by
  simp [matrixLiteral, Function.comp_def]

theorem nesting_matrixLiteral_le (rows : List (List Binary64)) :
    (matrixLiteral rows).signed.nesting ≤ 3 := by
  rw [signed_matrixLiteral, nesting, nestings_le, List.forall_mem_map]
  intro row _
  rw [nesting]
  apply Nat.succ_le_succ
  rw [nestings_le, List.forall_mem_map]
  exact fun x _ => Nat.succ_le_succ (nesting_signedNumber_le x)

theorem height_matrixLiteral_le (rows : List (List Binary64)) :
    (matrixLiteral rows).signed.height ≤ 4 := by
  rw [signed_matrixLiteral, height]
  apply Nat.succ_le_succ
  rw [heights_le, List.forall_mem_map]
  intro row _
  rw [height]
  apply Nat.succ_le_succ
  rw [heights_le, List.forall_mem_map]
  exact fun x _ => height_signedNumber_le x

theorem evalAll_number (b : Bindings) (xs : List Binary64) :
    evalAll b (xs.map number) = .ok xs := by
  induction xs with
  | nil => rfl
  | cons x xs ih =>
      rw [List.map_cons, evalAll, eval, ih]
      rfl

theorem evalMatrix_matrixLiteral (b : Bindings) (f : Builtin) (rows : List (List Binary64)) :
    evalMatrix b f (matrixLiteral rows) = .ok rows := by
  have hlists : (rows.map fun row => list (row.map number)).all isList := by
    simp [isList]
  rw [matrixLiteral, evalMatrix, if_pos hlists]
  induction rows with
  | nil => rfl
  | cons row rows ih =>
      rw [List.map_cons, evalRows, evalSequence, evalAll_number, ih (by simp [isList])]
      rfl

/-- A call of the determinant makes a matrix of the rows it is given. -/
theorem eval_det (b : Bindings) (x : Expr) :
    (call "det" [x]).eval b = evalMatrix b .det x >>= fun rows =>
      DenseMatrix.ofRows rows >>= fun m => m.determinant.map (·.value) := by
  have hcall : callFailure? "det" 1 = none := by decide
  have hdet : Builtin.ofName? "det" = some .det := by decide
  rw [eval]
  simp only [List.length_singleton, hcall, hdet, evalArguments, if_true]
  rfl

end Literals

end Reckon.Expr

namespace Reckon.DenseMatrix

variable {α : Type}

theorem mem_of_mem_pieces {length count : Nat} {xs row : List α}
    (h : row ∈ pieces length count xs) : ∀ x ∈ row, x ∈ xs := by
  induction count generalizing xs with
  | zero => cases h
  | succ count ih =>
      rw [pieces, List.mem_cons] at h
      obtain rfl | h := h
      · exact fun x hx => List.mem_of_mem_take hx
      · exact fun x hx => List.mem_of_mem_drop (ih h x hx)

section Text

variable {m : DenseMatrix Binary64}

theorem text_det (m : DenseMatrix Binary64) :
    (Expr.call "det" [.matrixLiteral m.toRows]).text = "det(" ++ String.ofList m.print ++ ")" := by
  rw [← String.toList_inj]
  simp [Expr.text, Expr.print, Expr.printItems, Expr.print_matrixLiteral, print]

/-- The text of a matrix with finite entries is read, and what is read has the outcome of what
its rows make. -/
theorem exists_parse_det (h : ∀ x ∈ m.data, x.isFinite) :
    ∃ parsed, Expr.parse ("det(" ++ String.ofList m.print ++ ")") = .ok parsed ∧
      parsed.expr = .call "det" [(Expr.matrixLiteral m.toRows).signed] ∧
      ∀ b, parsed.expr.eval b =
        ofRows m.toRows >>= fun m' => m'.determinant.map (·.value) := by
  have hfinite : ∀ row ∈ m.toRows, ∀ x ∈ row, x.isFinite :=
    fun row hrow x hx => h x (mem_of_mem_pieces hrow x hx)
  have hprintable : (Expr.call "det" [.matrixLiteral m.toRows]).Printable := by
    rw [Expr.printable_call, List.forall_mem_singleton]
    exact ⟨by decide, Expr.printable_matrixLiteral hfinite⟩
  have hsigned : (Expr.call "det" [.matrixLiteral m.toRows]).signed =
      .call "det" [(Expr.matrixLiteral m.toRows).signed] := Expr.signed_call _ _
  have hnesting : (Expr.call "det" [.matrixLiteral m.toRows]).signed.nesting ≤ 255 := by
    have hle := Expr.nesting_matrixLiteral_le m.toRows
    rw [hsigned, Expr.nesting, Expr.nestings_le, List.forall_mem_singleton]
    omega
  have hheight : (Expr.call "det" [.matrixLiteral m.toRows]).signed.height ≤ 512 := by
    have hle := Expr.height_matrixLiteral_le m.toRows
    rw [hsigned, Expr.height, Nat.succ_le_iff, Nat.lt_iff_le_pred (by decide), Expr.heights_le,
      List.forall_mem_singleton]
    omega
  obtain ⟨parsed, hparse, hexpr⟩ := Expr.parse_text_of_bounds hprintable hnesting hheight
  refine ⟨parsed, text_det m ▸ hparse, hexpr.trans hsigned, fun b => ?_⟩
  rw [hexpr, Expr.eval_signed, Expr.eval_det, Expr.evalMatrix_matrixLiteral, ok_bind]

/-- The text of a matrix with finite entries, as the argument of a determinant, is read, and what
is read is evaluated to the rows of the matrix, whatever the bindings. They make the matrix again,
and so the outcome is that of the determinant itself. -/
theorem parse_det_of_print (h : ∀ x ∈ m.data, x.isFinite) :
    ∃ parsed matrix, Expr.parse ("det(" ++ String.ofList m.print ++ ")") = .ok parsed ∧
      parsed.expr = .call "det" [matrix] ∧
      (∀ b, Expr.evalMatrix b .det matrix = .ok m.toRows) ∧ ofRows m.toRows = .ok m ∧
      ∀ b, parsed.expr.eval b = m.determinant.map (·.value) := by
  obtain ⟨parsed, hparse, hexpr, heval⟩ := exists_parse_det h
  refine ⟨parsed, _, hparse, hexpr, fun b => ?_, m.ofRows_toRows, fun b => ?_⟩
  · rw [← (Expr.alike_signed b _).matrix, Expr.evalMatrix_matrixLiteral]
  · rw [heval, m.ofRows_toRows, ok_bind]

theorem parse_det_of_print_signs :
    ∃ m parsed, new 2 2 [1, -0, -2.5, 1e21] = .ok m ∧
      Expr.parse ("det(" ++ String.ofList m.print ++ ")") = .ok parsed ∧
      ∀ b, parsed.expr.eval b = m.determinant.map (·.value) := by
  obtain ⟨m, hm⟩ : ∃ m, new 2 2 [(1 : Binary64), -0, -2.5, 1e21] = .ok m :=
    exists_new_iff.2 ⟨⟨by decide, by decide⟩, rfl, by decide⟩
  obtain ⟨-, -, hdata⟩ := new_eq_ok.1 hm
  have hfinite : ∀ x ∈ m.data, x.isFinite := by
    rw [hdata]
    decide +kernel
  obtain ⟨parsed, _, hparse, -, -, -, heval⟩ := parse_det_of_print hfinite
  exact ⟨m, parsed, hm, hparse, heval⟩

end Text

end Reckon.DenseMatrix
