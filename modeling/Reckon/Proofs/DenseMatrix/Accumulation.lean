import Reckon.Proofs.Binary64.Zeros
import Reckon.Proofs.DenseMatrix.Positions

/-!
Products of matrices of binary64 numbers against the plain sums of products. A product of
matrices passes over the terms with a zero in the left factor. Where the right factor is
finite, such a term is a zero, which changes no sum that starts from positive zero. Where it
is infinite or no number, the plain sum is no number, and the product goes on without it.
-/

namespace Reckon

namespace DenseMatrix

variable {r k c : Nat}

section Pairs

variable {α : Type} {a b : DenseMatrix α} {A : Matrix (Fin r) (Fin k) α}
  {B : Matrix (Fin k) (Fin c) α}

/-- What is multiplied for an entry of a product: a row of the left factor against a column of
the right one, in this order. -/
def pairs? (a b : DenseMatrix α) (i j : Nat) : Option (List (α × α)) :=
  (List.range a.cols).mapM fun l => do return (← a.get? i l, ← b.get? l j)

theorem pairs?_eq (ha : a.Holds A) (hb : b.Holds B) (i : Fin r) (j : Fin c) :
    pairs? a b i j = some (List.ofFn fun l => (A i l, B l j)) := by
  rw [pairs?, ha.cols_eq]
  refine mapM_range_eq_some fun l => ?_
  rw [ha.get?, hb.get?]
  rfl

variable [Scalar α]

/-- Products added to a number, one after the other. -/
def addProducts (start : α) (pairs : List (α × α)) : α :=
  pairs.foldl (fun sum pair => sum + pair.1 * pair.2) start

theorem addProducts_cons (start : α) (pair : α × α) (pairs : List (α × α)) :
    addProducts start (pair :: pairs) = addProducts (start + pair.1 * pair.2) pairs := rfl

/-- The pairs that do not start with a zero. -/
def withoutZeros (pairs : List (α × α)) : List (α × α) :=
  pairs.filter fun pair => !Scalar.isZero pair.1

theorem productTable_apply (A : Matrix (Fin r) (Fin k) α) (B : Matrix (Fin k) (Fin c) α)
    (i : Fin r) (j : Fin c) :
    productTable A B i j =
      addProducts Scalar.zero (withoutZeros (List.ofFn fun l => (A i l, B l j))) := by
  have hstep (row : Fin c → α) (l : Fin k) :
      (if !Scalar.isZero (A i l) then row j + A i l * B l j else row j) =
        combine row (A i l) (B l) j := by
    by_cases hzero : Scalar.isZero (A i l) <;> simp [combine, hzero]
  rw [addProducts, withoutZeros, List.foldl_filter, List.ofFn_eq_map, List.foldl_map]
  exact (List.foldl_hom (fun row : Fin c → α => row j) hstep).symm

end Pairs

section Sums

/-- Whatever is passed over for a zero would have been multiplied by a finite number. -/
def SkipsFinite (pairs : List (Binary64 × Binary64)) : Prop :=
  ∀ pair ∈ pairs, pair.1.isZero → pair.2.isFinite

variable {start : Binary64} {pairs : List (Binary64 × Binary64)}

theorem addProducts_withoutZeros (h : SkipsFinite pairs) (hstart : start ≠ -0) :
    addProducts start (withoutZeros pairs) = addProducts start pairs := by
  induction pairs generalizing start with
  | nil => rfl
  | cons pair pairs ih =>
      obtain ⟨hpair, hpairs⟩ := List.forall_mem_cons.1 h
      rw [addProducts_cons]
      by_cases hzero : Scalar.isZero pair.1
      · have hskip : withoutZeros (pair :: pairs) = withoutZeros pairs :=
          List.filter_cons_of_neg (by simpa using hzero)
        have hproduct : (pair.1 * pair.2).isZero :=
          Binary64.isZero_mul_of_isFinite hzero (hpair hzero)
        rw [hskip, Binary64.add_of_isZero hstart hproduct, ih hpairs hstart]
      · have hkeep : withoutZeros (pair :: pairs) = pair :: withoutZeros pairs :=
          List.filter_cons_of_pos (by simpa using hzero)
        rw [hkeep, addProducts_cons, ih hpairs (Binary64.add_ne_negZero hstart _)]

theorem isNaN_addProducts (h : start.isNaN) : (addProducts start pairs).isNaN := by
  induction pairs generalizing start with
  | nil => exact h
  | cons pair pairs ih => exact ih (Binary64.isNaN_add (.inl h))

theorem isNaN_addProducts_of_lost (h : ¬SkipsFinite pairs) : (addProducts start pairs).isNaN := by
  induction pairs generalizing start with
  | nil => exact absurd (fun _ hm => nomatch hm) h
  | cons pair pairs ih =>
      rw [addProducts_cons]
      by_cases hpair : pair.1.isZero → pair.2.isFinite
      · exact ih fun hpairs => h (List.forall_mem_cons.2 ⟨hpair, hpairs⟩)
      · obtain ⟨hzero, hfinite⟩ := Classical.not_imp.1 hpair
        have hproduct := Binary64.isNaN_mul_of_not_isFinite hzero hfinite
        exact isNaN_addProducts (Binary64.isNaN_add (.inr hproduct))

end Sums

/-- The same number, or no number both. -/
def Agree (x y : Binary64) : Prop := x = y ∨ x.isNaN ∧ y.isNaN

/-- The sum without the skipped pairs is the whole one unless a zero met something that is not
finite: then the whole one is no number. -/
theorem withoutZeros_agrees_iff (pairs : List (Binary64 × Binary64)) :
    let sum := addProducts Scalar.zero pairs
    let entry := addProducts Scalar.zero (withoutZeros pairs)
    (SkipsFinite pairs → entry = sum) ∧ (¬SkipsFinite pairs → sum.isNaN) ∧
      (Agree entry sum ↔ SkipsFinite pairs ∨ entry.isNaN) := by
  intro sum entry
  have heq (h : SkipsFinite pairs) : entry = sum := addProducts_withoutZeros h (by decide)
  have hnan (h : ¬SkipsFinite pairs) : sum.isNaN := isNaN_addProducts_of_lost h
  refine ⟨heq, hnan, ?_⟩
  by_cases h : SkipsFinite pairs
  · exact iff_of_true (.inl (heq h)) (.inl h)
  · constructor
    · rintro (hsame | ⟨hentry, -⟩)
      · exact .inr (hsame ▸ hnan h)
      · exact .inr hentry
    · rintro (hskips | hentry)
      · exact absurd hskips h
      · exact .inr ⟨hentry, hnan h⟩

/-- A product whose entries can be counted has the shape it should have, made in place within the
data. Each entry is the sum of its products without those that start with a zero. It is the plain
sum, to the bit, if no such product has an infinity or a NaN for its other factor. Otherwise the
plain sum is no number, and the entry agrees with it only if it is no number for another reason. A
product whose entries cannot be counted stops the program. -/
theorem multiply_agrees_iff {a b : DenseMatrix Binary64} (hsize : a.cols = b.rows) :
    (a.rows * b.cols < UInt64.size → ∃ product, a.multiply b = .ok product ∧
      a.multiplyAt b = some product.value.data ∧
      product.value.rows = a.rows ∧ product.value.cols = b.cols ∧
      ∀ i j, i < a.rows → j < b.cols → ∃ pairs entry,
        pairs? a b i j = some pairs ∧ product.value.get? i j = some entry ∧
        entry = addProducts 0 (withoutZeros pairs) ∧
        (SkipsFinite pairs → entry = addProducts 0 pairs) ∧
        (¬SkipsFinite pairs → (addProducts 0 pairs).isNaN) ∧
        (Agree entry (addProducts 0 pairs) ↔ SkipsFinite pairs ∨ entry.isNaN)) ∧
    (UInt64.size ≤ a.rows * b.cols → a.multiply b = .error .overflow) := by
  refine ⟨fun hproduct => ?_, multiply_eq_overflow hsize⟩
  obtain ⟨A, hA⟩ := exists_holds (m := a) rfl rfl
  obtain ⟨B, hB⟩ := exists_holds (m := b) hsize.symm rfl
  obtain ⟨product, hmultiply, hholds⟩ := multiply_holds hA hB hproduct
  refine ⟨_, hmultiply, by rw [multiplyAt_eq hA hB, hholds.data_eq], hholds.rows_eq,
    hholds.cols_eq, fun i j hi hj => ?_⟩
  refine ⟨_, _, pairs?_eq hA hB ⟨i, hi⟩ ⟨j, hj⟩, hholds.get? ⟨i, hi⟩ ⟨j, hj⟩,
    productTable_apply A B _ _, ?_⟩
  rw [productTable_apply]
  exact withoutZeros_agrees_iff _

/-- A zero met by a finite number is passed over without loss. -/
theorem multiply_agrees_at_zero :
    let a : DenseMatrix Binary64 := ⟨1, 2, [0, 2], by decide, by decide, by decide⟩
    let b : DenseMatrix Binary64 := ⟨2, 1, [3, 4], by decide, by decide, by decide⟩
    a.cols = b.rows ∧ a.rows * b.cols < UInt64.size ∧ ∃ product, a.multiply b = .ok product ∧
      ∃ pairs, pairs? a b 0 0 = some pairs ∧ withoutZeros pairs ≠ pairs ∧
        product.value.get? 0 0 = some (addProducts 0 pairs) := by
  intro a b
  have hcounted : a.rows * b.cols < UInt64.size := by decide
  have hpairs : pairs? a b 0 0 = some [(0, 3), (2, 4)] := rfl
  obtain ⟨product, hproduct, -, -, -, hentries⟩ := (multiply_agrees_iff rfl).1 hcounted
  obtain ⟨pairs, entry, hpairs', hentry, -, hsame, -⟩ := hentries 0 0 (by decide) (by decide)
  cases hpairs.symm.trans hpairs'
  have hskips : SkipsFinite [(0, 3), (2, 4)] := by
    simp only [SkipsFinite, List.forall_mem_cons]
    decide
  exact ⟨rfl, hcounted, product, hproduct, _, hpairs, by decide, hsame hskips ▸ hentry⟩

/-- Zero times infinity is no number, and no number is a term of the plain sum; the product
passes it over. -/
theorem multiply_passes_infinity :
    let a : DenseMatrix Binary64 := ⟨1, 1, [0], by decide, by decide, by decide⟩
    let b : DenseMatrix Binary64 := ⟨1, 1, [⟨0x7FF0000000000000⟩], by decide, by decide, by decide⟩
    a.cols = b.rows ∧
      (a.multiply b).toOption.map (fun product => product.value.data) = some [0] ∧
      (pairs? a b 0 0).map (addProducts 0) = some .invalid := by
  decide +kernel

end DenseMatrix
end Reckon
