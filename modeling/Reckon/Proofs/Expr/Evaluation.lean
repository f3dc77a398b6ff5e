import Reckon.Proofs.Expr.Shape
import Reckon.Proofs.Failure

/-!
What evaluation says about the shape of a tree: a value certifies a well-formed tree, and
such a tree fails for the numbers in it only. Which of two failures comes first is not
stated.
-/

namespace Reckon

/-- Causes that lie in the numbers: their values and how many there are. -/
def Cause.Numerical : Cause → Prop
  | divisionByZero | domain _ | dimension _ | emptyInput _ | insufficientData _ _ _ => True
  | argument (.emptyShape rows cols) => 0 < rows ∧ cols = 0
  | argument .constantSequence => True
  | _ => False

theorem Cause.Numerical.kind_mem {cause : Cause} (h : cause.Numerical) :
    cause.kind ∈ [.divisionByZero, .domain, .emptyInput, .dimensionMismatch, .insufficientData,
      Failure.Kind.invalidArgument] := by
  cases cause with
  | divisionByZero | domain | dimension | emptyInput | insufficientData | argument =>
      simp [Cause.kind]
  | _ => exact h.elim

/-- Causes that lie in the tree: names without a value or a function, functions that have
no numeric value, and arguments or lists that do not fit their place. -/
inductive Cause.Structural (b : Bindings) : Cause → Prop where
  | unbound {name} : constant? name = none → b.get? name = none → name ≠ answerName →
      Structural b (.unbound name)
  | noPreviousAnswer : b.answer? = none → Structural b .noPreviousAnswer
  | needsSymbolic {func f} : Builtin.ofName? func = some f → f.isHigherOrder →
      Structural b (.needsSymbolic func)
  | unknownFunction {func} : Builtin.ofName? func = none →
      Structural b (.argument (.unknownFunction func))
  | count {func f got} : Builtin.ofName? func = some f → ¬ f.accepts got →
      Structural b (.argument (.count func f.arityText got))
  | listAsNumber : Structural b (.argument .listAsNumber)
  | expectedList {f : Builtin} : f.argumentShape = .sequence →
      Structural b (.argument (.expectedList f.name))
  | expectedMatrix {f : Builtin} : f.argumentShape = .matrix →
      Structural b (.argument (.expectedMatrix f.name))

theorem Cause.Structural.of_unsupportedForm {b : Bindings} {cause : Cause}
    (h : cause.Structural b) (hk : cause.kind = .unsupportedForm) :
    ∃ func f, cause = .needsSymbolic func ∧ Builtin.ofName? func = some f ∧ f.isHigherOrder := by
  cases h with
  | needsSymbolic hf ho => exact ⟨_, _, rfl, hf, ho⟩
  | _ => cases hk

/-- The computation fails for the numbers it works on, if at all. -/
def FailsNumerically {α : Type} (x : Except Failure α) : Prop :=
  ∀ failure, x = .error failure → failure.cause.Numerical

namespace FailsNumerically

variable {α β : Type} {x y : Except Failure α}

theorem ok (a : α) : FailsNumerically (.ok a : Except Failure α) := fun _ h => nomatch h

theorem error {failure : Failure} (h : failure.cause.Numerical) :
    FailsNumerically (.error failure : Except Failure α) := by
  rintro _ ⟨⟩
  exact h

theorem ite {c : Prop} [Decidable c] (hx : FailsNumerically x) (hy : FailsNumerically y) :
    FailsNumerically (if c then x else y) := by
  split
  · exact hx
  · exact hy

theorem bind {f : α → Except Failure β} (hx : FailsNumerically x)
    (hf : ∀ a, FailsNumerically (f a)) : FailsNumerically (x >>= f) := by
  intro failure h
  obtain h | ⟨a, -, h⟩ := bind_eq_error.1 h
  · exact hx failure h
  · exact hf a failure h

theorem map (hx : FailsNumerically x) (f : α → β) : FailsNumerically (x.map f) := by
  cases x with
  | error failure => exact .error (hx failure rfl)
  | ok a => exact .ok _

end FailsNumerically

namespace Expr

section Kernels

variable {f : Builtin}

theorem applyOperator_failsNumerically (op : Operator) (x y : Binary64) :
    FailsNumerically (applyOperator op x y) := by
  cases op with
  | div => exact .ite (.error trivial) (.ok _)
  | add | sub | mul | pow => exact .ok _

theorem factorialOf_failsNumerically (x : Binary64) : FailsNumerically (factorialOf x) :=
  .ite (.ok _) (.ite (.error trivial) (.ite (.ok _) (.ok _)))

theorem requireNonNegative_failsNumerically (f : Builtin) (x : Binary64) :
    FailsNumerically (requireNonNegative f x) :=
  .ite (.error trivial) (.ok _)

theorem logarithm_failsNumerically (x base : Binary64) : FailsNumerically (logarithm x base) :=
  .ite (.error trivial) (.ok _)

theorem applyScalar_failsNumerically (hf : f.argumentShape = .number) (ho : ¬ f.isHigherOrder)
    (x : Binary64) : FailsNumerically (applyScalar f x) := by
  cases f with
  | sin | cos | tan | atan | sinh | cosh | tanh | abs | exp => exact .ok _
  | asin | acos =>
      have hinterval (f : Builtin) : FailsNumerically (requireUnitInterval f x) :=
        .ite (.error trivial) (.ok _)
      exact (hinterval _).bind fun _ => .ok _
  | ln | log | sqrt => exact (requireNonNegative_failsNumerically _ x).bind fun _ => .ok _
  | integrate | diff | sum | limit => exact absurd rfl ho
  | det | dot | norm | mean | median | stddev | corr => cases hf

theorem requireValues_failsNumerically (op : String) (xs : List Binary64) :
    FailsNumerically (Statistics.requireValues op xs) :=
  .ite (.error trivial) (.ok _)

theorem requirePairs_failsNumerically (op : String) (xs ys : List Binary64) :
    FailsNumerically (Statistics.requirePairs op xs ys) := by
  refine (requireValues_failsNumerically op xs).bind fun _ => ?_
  refine (requireValues_failsNumerically op ys).bind fun _ => ?_
  exact .ite (.error trivial) (.ite (.error trivial) (.ok _))

theorem requireEntries_failsNumerically (op : String) (xs : List Binary64) :
    FailsNumerically (DenseVector.requireEntries op xs) :=
  .ite (.error trivial) (.ok _)

theorem applySequence_failsNumerically (hf : f.argumentShape = .sequence) (ha : f.accepts 1)
    (xs : List Binary64) : FailsNumerically (applySequence f xs) := by
  cases f with
  | norm => exact ((requireEntries_failsNumerically _ xs).bind fun _ => .ok _).map _
  | mean | median | stddev =>
      exact ((requireValues_failsNumerically _ xs).bind fun _ => .ok _).map _
  | dot | corr => cases ha
  | _ => cases hf

theorem applySequences_failsNumerically (hf : f.argumentShape = .sequence) (ha : f.accepts 2)
    (xs ys : List Binary64) : FailsNumerically (applySequences f xs ys) := by
  cases f with
  | dot =>
      have hlengths : FailsNumerically (DenseVector.requireSameLength "dot" xs ys) :=
        .ite (.error trivial) (.ok _)
      refine FailsNumerically.map (hlengths.bind fun _ => ?_) _
      exact (requireEntries_failsNumerically _ xs).bind fun _ => .ok _
  | corr =>
      refine FailsNumerically.map ((requirePairs_failsNumerically _ xs ys).bind fun _ => ?_) _
      exact .ite (.error trivial) (.ok _)
  | norm | mean | median | stddev => cases ha
  | _ => cases hf

theorem ofRows_failsNumerically (rows : List (List Binary64)) :
    FailsNumerically (DenseMatrix.ofRows rows) := by
  cases rows with
  | nil => exact .error trivial
  | cons row rows =>
      simp only [DenseMatrix.ofRows]
      split
      · exact .error trivial
      · unfold DenseMatrix.ofData
        split
        · split
          · exact .ok _
          · exact .error trivial
        · rename_i hshape
          have hcols : 0 < rows.length + 1 ∧ row.length = 0 := by omega
          exact .error hcols

theorem determinant_failsNumerically (m : DenseMatrix Binary64) :
    FailsNumerically (DenseMatrix.determinant m) := by
  have hsquare (op : String) : FailsNumerically (LuFactors.requireSquare op m) :=
    .ite (.ok _) (.error trivial)
  refine (hsquare _).bind fun _ => ?_
  exact ((hsquare _).bind fun _ => .ok _).bind fun _ => .ok _

end Kernels

/-- A computation that finds out whether `P`: it succeeds only if so, and where it fails
for a structural cause, it is not so. -/
def Decides (b : Bindings) (P : Prop) {α : Type} (x : Except Failure α) : Prop :=
  (∀ a, x = .ok a → P) ∧
    ∀ failure, x = .error failure →
      failure.cause.Numerical ∨ failure.cause.Structural b ∧ ¬ P

namespace Decides

variable {b : Bindings} {P Q : Prop} {α β : Type} {x : Except Failure α}

theorem ok (h : P) (a : α) : Decides b P (.ok a : Except Failure α) :=
  ⟨fun _ _ => h, fun _ h => nomatch h⟩

theorem error {failure : Failure} (h : failure.cause.Structural b) (hP : ¬ P) :
    Decides b P (.error failure : Except Failure α) := by
  constructor
  · intro _ h
    cases h
  · rintro _ ⟨⟩
    exact .inr ⟨h, hP⟩

theorem of_failsNumerically (h : P) (hx : FailsNumerically x) : Decides b P x :=
  ⟨fun _ _ => h, fun failure hf => .inl (hx failure hf)⟩

/-- Going on where a necessary condition has been found to hold. -/
theorem bind {f : α → Except Failure β} (hx : Decides b P x) (hQ : Q → P)
    (hf : P → ∀ a, Decides b Q (f a)) : Decides b Q (x >>= f) := by
  constructor
  · intro v h
    obtain ⟨a, ha, h⟩ := bind_eq_ok.1 h
    exact (hf (hx.1 a ha) a).1 v h
  · intro failure h
    obtain h | ⟨a, ha, h⟩ := bind_eq_error.1 h
    · exact (hx.2 failure h).imp_right (And.imp_right fun hP hq => hP (hQ hq))
    · exact (hf (hx.1 a ha) a).2 failure h

theorem congr (h : P ↔ Q) (hx : Decides b P x) : Decides b Q x := by
  rwa [← propext h]

end Decides

theorem lookup_decides (b : Bindings) (name : String) :
    Decides b (HasShape b .number (var name)) (lookup b name) := by
  rw [hasShape_var]
  unfold lookup
  cases hc : constant? name with
  | some value =>
      refine .ok (Decidable.byContradiction fun hne => ?_) _
      rw [constant?_eq_none.2 ⟨fun h => hne (.inl h), fun h => hne (.inr (.inl h))⟩] at hc
      cases hc
  | none =>
      obtain ⟨hpi, he⟩ := constant?_eq_none.1 hc
      cases hb : b.get? name with
      | some value => exact .ok (by simp) _
      | none =>
          refine .error ?_ (by simp [hpi, he])
          by_cases ha : name = answerName
          · subst ha
            simpa using .noPreviousAnswer hb
          · simpa [ha] using .unbound hc hb ha

section Lists

variable {b : Bindings} {f : Builtin}

theorem evalAll_eq_mapM (es : List Expr) : evalAll b es = es.mapM (eval b) := by
  induction es with
  | nil => rfl
  | cons e es ih => rw [evalAll, List.mapM_cons, ih]

theorem evalRows_eq_mapM (rows : List Expr) :
    evalRows b f rows = rows.mapM (evalSequence b f) := by
  induction rows with
  | nil => rfl
  | cons row rows ih => rw [evalRows, List.mapM_cons, ih]

theorem Decides.mapM {α : Type} {es : List Expr} {P : Expr → Prop}
    {x : Expr → Except Failure α} (h : ∀ e ∈ es, Decides b (P e) (x e)) :
    Decides b (∀ e ∈ es, P e) (es.mapM x) := by
  induction es with
  | nil => exact .ok (by simp) _
  | cons e es ih =>
      obtain ⟨he, hes⟩ := List.forall_mem_cons.1 h
      rw [List.mapM_cons]
      refine he.bind (fun hs => hs e List.mem_cons_self) fun hs a => ?_
      refine (ih hes).bind (fun hs e hm => hs e (List.mem_cons_of_mem _ hm)) fun hss as => ?_
      exact .ok (List.forall_mem_cons.2 ⟨hs, hss⟩) _

end Lists

/-- What evaluation finds out about a tree in each place it may stand. Rows are read as
sequences by a function of matrices, after they have been found to be lists. -/
structure Decided (b : Bindings) (e : Expr) : Prop where
  number : Decides b (HasShape b .number e) (e.eval b)
  sequence (f : Builtin) : f.argumentShape = .sequence ∨ e.isList →
    Decides b (HasShape b .sequence e) (evalSequence b f e)
  matrix (f : Builtin) : f.argumentShape = .matrix →
    Decides b (HasShape b .matrix e) (evalMatrix b f e)

section NoList

variable {b : Bindings} {e : Expr} (f : Builtin)

theorem evalSequence_of_not_isList (h : e.isList = false) :
    evalSequence b f e = .error (.of (.argument (.expectedList f.name))) := by
  cases e with
  | list => cases h
  | _ => rfl

theorem evalMatrix_of_not_isList (h : e.isList = false) :
    evalMatrix b f e = .error (.of (.argument (.expectedMatrix f.name))) := by
  cases e with
  | list => cases h
  | _ => rfl

end NoList

theorem Decided.of_not_isList {b : Bindings} {e : Expr} (hl : e.isList = false)
    (h : Decides b (HasShape b .number e) (e.eval b)) : Decided b e where
  number := h
  sequence f hf := by
    have hs : f.argumentShape = .sequence := by simpa [hl] using hf
    rw [evalSequence_of_not_isList f hl]
    refine .error (.expectedList hs) fun hc => ?_
    obtain ⟨items, rfl, -⟩ := hasShape_sequence.1 hc
    cases hl
  matrix f hf := by
    rw [evalMatrix_of_not_isList f hl]
    refine .error (.expectedMatrix hf) fun hc => ?_
    obtain ⟨items, rfl, -⟩ := hasShape_matrix.1 hc
    cases hl

theorem Decided.list {b : Bindings} {items : List Expr} (h : ∀ e ∈ items, Decided b e) :
    Decided b (list items) where
  number := .error .listAsNumber hasShape_list
  sequence f _ := by
    rw [evalSequence, evalAll_eq_mapM]
    exact (Decides.mapM fun e he => (h e he).number).congr (by simp [hasShape_sequence])
  matrix f hf := by
    rw [evalMatrix]
    split
    · rename_i hall
      have hlists : ∀ e ∈ items, e.isList := by simpa using hall
      rw [evalRows_eq_mapM]
      exact (Decides.mapM fun e he => (h e he).sequence f (.inr (hlists e he))).congr
        (by simp [hasShape_matrix])
    · rename_i hall
      refine .error (.expectedMatrix hf) fun hc => hall ?_
      obtain ⟨rows, hr, hc⟩ := hasShape_matrix.1 hc
      cases hr
      refine List.all_eq_true.2 fun row hrow => ?_
      obtain ⟨items, rfl, -⟩ := hasShape_sequence.1 (hc row hrow)
      rfl

section Arguments

variable {b : Bindings} {f : Builtin}

theorem evalArguments_one {x : Expr} (ho : ¬ f.isHigherOrder) (ha : f.accepts 1)
    (h : Decided b x) : Decides b (HasShape b f.argumentShape x) (evalArguments b f [x]) := by
  rw [evalArguments]
  cases hf : f.argumentShape with
  | matrix =>
      rw [if_pos (Builtin.argumentShape_eq_matrix.1 hf)]
      refine (h.matrix f hf).bind id fun hx rows => .of_failsNumerically hx ?_
      refine (ofRows_failsNumerically rows).bind fun m => ?_
      exact (determinant_failsNumerically m).bind fun _ => .ok _
  | sequence =>
      rw [if_neg (by simp [← Builtin.argumentShape_eq_matrix, hf]),
        if_pos (Builtin.isArray_iff.2 (by simp [hf]))]
      exact (h.sequence f (.inl hf)).bind id fun hx xs =>
        .of_failsNumerically hx (applySequence_failsNumerically hf ha xs)
  | number =>
      rw [if_neg (by simp [← Builtin.argumentShape_eq_matrix, hf]),
        if_neg (by simp [Builtin.isArray_iff, hf])]
      exact h.number.bind id fun hx v =>
        .of_failsNumerically hx (applyScalar_failsNumerically hf ho v)

theorem evalArguments_two {x y : Expr} (hf : f = .log ∨ f = .dot ∨ f = .corr)
    (hx : Decided b x) (hy : Decided b y) :
    Decides b (HasShape b f.argumentShape x ∧ HasShape b f.argumentShape y)
      (evalArguments b f [x, y]) := by
  rw [evalArguments]
  have hsequences (hs : f.argumentShape = .sequence) (ha : f.accepts 2) :
      Decides b (HasShape b f.argumentShape x ∧ HasShape b f.argumentShape y) (do
        let xs ← evalSequence b f x
        let ys ← evalSequence b f y
        applySequences f xs ys) := by
    rw [hs]
    refine (hx.sequence f (.inl hs)).bind And.left fun hx xs => ?_
    refine (hy.sequence f (.inl hs)).bind And.right fun hy ys => ?_
    exact .of_failsNumerically ⟨hx, hy⟩ (applySequences_failsNumerically hs ha xs ys)
  obtain rfl | rfl | rfl := hf
  · refine hx.number.bind And.left fun hx v => ?_
    refine Decides.bind (.of_failsNumerically trivial (requireNonNegative_failsNumerically _ v))
      (fun _ => trivial) fun _ _ => ?_
    refine hy.number.bind And.right fun hy base => ?_
    exact .of_failsNumerically ⟨hx, hy⟩ (logarithm_failsNumerically v base)
  · exact hsequences rfl rfl
  · exact hsequences rfl rfl

theorem evalArguments_decides {args : List Expr} (ho : ¬ f.isHigherOrder)
    (ha : f.accepts args.length) (h : ∀ e ∈ args, Decided b e) :
    Decides b (∀ e ∈ args, HasShape b f.argumentShape e) (evalArguments b f args) := by
  match args, Builtin.accepts_cases ho ha with
  | [x], _ => exact (evalArguments_one ho ha (h x (by simp))).congr (by simp)
  | [x, y], .inr ⟨_, hf⟩ =>
      exact (evalArguments_two hf (h x (by simp)) (h y (by simp))).congr (by simp)

/-- A call that fails before its arguments are evaluated names no numeric function of that
many arguments. -/
theorem callFailure?_eq_some {func : String} {count : Nat} {failure : Failure}
    (h : callFailure? func count = some failure) :
    failure.cause.Structural b ∧
      ∀ f, Builtin.ofName? func = some f → f.accepts count → f.isHigherOrder := by
  unfold callFailure? at h
  split at h
  · rename_i hf
    cases h
    exact ⟨.unknownFunction hf, fun f hf' => by simp [hf] at hf'⟩
  · rename_i f hf
    split at h
    · rename_i ha
      cases h
      refine ⟨.count hf (by simpa using ha), fun f' hf' ha' => ?_⟩
      simp_all
    · split at h
      · rename_i ho
        cases h
        refine ⟨.needsSymbolic hf ho, fun f' hf' _ => ?_⟩
        simp_all
      · cases h

theorem callFailure?_eq_none {func : String} {count : Nat} :
    callFailure? func count = none ↔
      ∃ f, Builtin.ofName? func = some f ∧ ¬ f.isHigherOrder ∧ f.accepts count := by
  unfold callFailure?
  cases Builtin.ofName? func with
  | none => simp
  | some f => cases ha : f.accepts count <;> cases ho : f.isHigherOrder <;> simp [ha, ho]

theorem call_decides {func : String} {args : List Expr} (h : ∀ e ∈ args, Decided b e) :
    Decides b (HasShape b .number (call func args)) (eval b (call func args)) := by
  rw [eval, hasShape_call]
  cases hc : callFailure? func args.length with
  | some failure =>
      obtain ⟨hcause, hf⟩ := callFailure?_eq_some (b := b) hc
      exact .error hcause fun ⟨f, hname, ho, ha, _⟩ => ho (hf f hname ha)
  | none =>
      obtain ⟨f, hname, ho, ha⟩ := callFailure?_eq_none.1 hc
      simp only [hname]
      refine (evalArguments_decides ho ha h).congr ⟨fun hs => ⟨f, rfl, ho, ha, hs⟩, ?_⟩
      rintro ⟨_, ⟨⟩, -, -, hs⟩
      exact hs

end Arguments

theorem decided (b : Bindings) (e : Expr) : Decided b e := by
  induction e with
  | number v => exact .of_not_isList rfl (.ok (.number v) v)
  | var name => exact .of_not_isList rfl (lookup_decides b name)
  | binary op l r ihl ihr =>
      refine .of_not_isList rfl ?_
      rw [eval, hasShape_binary]
      refine ihl.number.bind And.left fun hl x => ?_
      refine ihr.number.bind And.right fun hr y => ?_
      exact .of_failsNumerically ⟨hl, hr⟩ (applyOperator_failsNumerically op x y)
  | neg e ih =>
      refine .of_not_isList rfl ?_
      rw [eval, hasShape_neg]
      exact ih.number.bind id fun he x => .ok he _
  | factorial e ih =>
      refine .of_not_isList rfl ?_
      rw [eval, hasShape_factorial]
      exact ih.number.bind id fun he x =>
        .of_failsNumerically he (factorialOf_failsNumerically x)
  | call func args ih => exact .of_not_isList rfl (call_decides ih)
  | list items ih => exact .list ih

/-- A value certifies a well-formed tree, and a well-formed tree fails for the numbers in it
only. Any other failure has its cause in the tree. A form without a numeric value is always
one that the call itself names, and never a function met after the call has been found to
fit; and a call that fits has the arguments that its function reads. -/
theorem eval_certifies_wellFormed (b : Bindings) (t : Expr) :
    (∀ v, t.eval b = .ok v → t.WellFormed b) ∧
    (∀ failure, t.WellFormed b → t.eval b = .error failure →
      failure.cause.Numerical ∧ failure.kind ∈ [.divisionByZero, .domain, .emptyInput,
        .dimensionMismatch, .insufficientData, .invalidArgument]) ∧
    (∀ failure, t.eval b = .error failure →
      failure.cause.Numerical ∨ failure.cause.Structural b ∧ ¬ t.WellFormed b) ∧
    (∀ failure, t.eval b = .error failure → failure.kind = .unsupportedForm →
      ∃ func f, failure.cause = .needsSymbolic func ∧ Builtin.ofName? func = some f ∧
        f.isHigherOrder) ∧
    ∀ func args, callFailure? func args.length = none →
      ∃ f, Builtin.ofName? func = some f ∧
        ((∃ x : Expr, args = [x] ∧ f ≠ .dot ∧ f ≠ .corr) ∨
          ∃ x y : Expr, args = [x, y] ∧ (f = .log ∨ f = .dot ∨ f = .corr)) := by
  have hdecides : Decides b (t.WellFormed b) (t.eval b) :=
    (decided b t).number.congr wellFormed_iff.symm
  refine ⟨hdecides.1, fun failure ht hf => ?_, hdecides.2, fun failure hf hk => ?_,
    fun func args hargs => ?_⟩
  · obtain hnum | ⟨-, hnot⟩ := hdecides.2 failure hf
    · exact ⟨hnum, Cause.Numerical.kind_mem hnum⟩
    · exact absurd ht hnot
  · obtain hnum | ⟨hstruct, -⟩ := hdecides.2 failure hf
    · have hkind := Cause.Numerical.kind_mem hnum
      rw [show failure.cause.kind = .unsupportedForm from hk] at hkind
      exact absurd hkind (by decide)
    · exact hstruct.of_unsupportedForm hk
  · obtain ⟨f, hname, ho, ha⟩ := callFailure?_eq_none.1 hargs
    refine ⟨f, hname, ?_⟩
    match args, Builtin.accepts_cases ho ha with
    | [x], .inl ⟨_, hf⟩ => exact .inl ⟨x, rfl, hf⟩
    | [x, y], .inr ⟨_, hf⟩ => exact .inr ⟨x, y, rfl, hf⟩

end Expr
end Reckon
