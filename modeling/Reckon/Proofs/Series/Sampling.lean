import Mathlib.Data.List.Forall2
import Reckon.Proofs.Failure
import Reckon.Series

/-!
Series report an expression point by point. The walk over the points carries bindings along,
and what keeps a point free of the ones before it is that nothing but the variable is ever
bound. Which points are sampled is left to the domain.
-/

namespace Reckon

theorem Bindings.set_of_forall {b : Bindings} {name : String}
    (h : ∀ entry ∈ b.entries, entry.1 = name) (v : Binary64) :
    b.set name v = .ofList [(name, v)] := by
  rw [set, List.filter_eq_nil_iff.2]
  · rfl
  · intro entry he
    simp [h entry he]

namespace Series

variable {e : Expr} {w : Walk}

/-- The point as it is seen with only the variable bound. -/
def pointAt (e : Expr) (x : Binary64) : SamplePoint :=
  ⟨x, finiteValue? (e.eval (.ofList [(sampleVariable, x)]))⟩

theorem finiteValue?_eq_some {result : Except Failure Binary64} {v : Binary64} :
    finiteValue? result = some v ↔ result = .ok v ∧ v.isFinite := by
  cases result with
  | error failure => simp [finiteValue?]
  | ok y =>
      by_cases hy : y.isFinite
      · simp only [finiteValue?, hy, if_true, Option.some.injEq, Except.ok.injEq]
        constructor
        · rintro rfl
          exact ⟨rfl, hy⟩
        · exact And.left
      · simp only [finiteValue?, hy, Except.ok.injEq]
        constructor
        · intro h
          cases h
        · rintro ⟨rfl, hv⟩
          exact absurd hv hy

def gapCount (points : List SamplePoint) : Nat := points.countP fun p => p.y.isNone

/-- Nothing but the variable is bound. -/
def Walk.Alone (w : Walk) : Prop := ∀ entry ∈ w.bindings.entries, entry.1 = sampleVariable

theorem alone_start : Walk.Alone ⟨.empty, 0⟩ := by simp [Walk.Alone, Bindings.empty]

theorem visit_run (hw : w.Alone) (e : Expr) (x : Binary64) :
    ∃ w', (visit e x).run w = (pointAt e x, w') ∧ w'.Alone ∧
      w'.gaps = w.gaps + gapCount [pointAt e x] := by
  have hset := Bindings.set_of_forall hw x
  refine ⟨((visit e x).run w).2, Prod.ext ?_ rfl, ?_, ?_⟩
  · change SamplePoint.mk x (finiteValue? (e.eval (w.bindings.set sampleVariable x))) = _
    rw [hset, pointAt]
  · change Walk.Alone ⟨w.bindings.set sampleVariable x, _⟩
    rw [hset]
    simp [Walk.Alone, Bindings.ofList, Bindings.set, Bindings.empty]
  · change (if (finiteValue? (e.eval (w.bindings.set sampleVariable x))).isNone then
      w.gaps + 1 else w.gaps) = _
    rw [hset, gapCount, List.countP_singleton, pointAt]
    split <;> rfl

/-- The walk sees every point as if it were the only one, in order, and counts the gaps. -/
theorem mapM_visit_run (hw : w.Alone) (e : Expr) (xs : List Binary64) :
    ∃ w', (xs.mapM (visit e)).run w = (xs.map (pointAt e), w') ∧ w'.Alone ∧
      w'.gaps = w.gaps + gapCount (xs.map (pointAt e)) := by
  induction xs generalizing w with
  | nil => exact ⟨w, rfl, hw, rfl⟩
  | cons x xs ih =>
      obtain ⟨w₁, hvisit, hw₁, hgaps₁⟩ := visit_run hw e x
      obtain ⟨w₂, hrest, hw₂, hgaps₂⟩ := ih hw₁
      refine ⟨w₂, ?_, hw₂, ?_⟩
      · rw [List.mapM_cons, StateT.run_bind, hvisit]
        change (xs.mapM (visit e) >>= fun points => pure (pointAt e x :: points)).run w₁ = _
        rw [StateT.run_bind, hrest]
        rfl
      · rw [hgaps₂, hgaps₁, Nat.add_assoc]
        exact congrArg _ List.countP_append.symm

/-- What a series is to say of an expression over given points. -/
structure Reports (e : Expr) (xs : List Binary64) (s : Series) : Prop where
  points : s.points.map (·.x) = xs
  values : ∀ p ∈ s.points, ∀ v,
    p.y = some v ↔ e.eval (.ofList [(sampleVariable, p.x)]) = .ok v ∧ v.isFinite
  complete : gapCount s.points = 0 → s.status = .complete
  gapped : 0 < gapCount s.points → s.status = .gapped (gapCount s.points)

theorem ofExpr_eq (expression : String) (e : Expr) (xs : List Binary64) :
    ofExpr expression e xs = ⟨expression, xs.map (pointAt e),
      if gapCount (xs.map (pointAt e)) = 0 then .complete
      else .gapped (gapCount (xs.map (pointAt e)))⟩ := by
  obtain ⟨w, hrun, -, hgaps⟩ := mapM_visit_run alone_start e xs
  rw [Nat.zero_add] at hgaps
  rw [ofExpr, hrun]
  dsimp only
  rw [hgaps]

theorem ofExpr_reports (expression : String) (e : Expr) (xs : List Binary64) :
    Reports e xs (ofExpr expression e xs) := by
  rw [ofExpr_eq]
  constructor
  · simp [pointAt, Function.comp_def]
  · simp only [List.mem_map]
    rintro _ ⟨x, -, rfl⟩ v
    exact finiteValue?_eq_some
  · intro h
    exact if_pos h
  · intro h
    exact if_neg (Nat.ne_of_gt h)

theorem length_abscissae (low high : Binary64) (count : Nat) :
    (abscissae low high count).length = count := by
  simp [abscissae]

end Series

/-- What is to come of a text over given points. -/
structure Series.Answers (text : String) (xs : List Binary64) (s : Series) : Prop where
  expression : s.expression = text
  failed {failure} : Expr.parse text = .error failure →
    s.points = [] ∧ s.status = .failed failure.message
  sampled {parsed} : Expr.parse text = .ok parsed → s.Reports parsed.expr xs

theorem Series.ofText_answers (text : String) (xs : List Binary64) :
    Answers text xs (ofText text xs) := by
  rw [ofText]
  cases hp : Expr.parse text with
  | error failure =>
      refine ⟨rfl, ?_, ?_⟩
      · intro failure' h
        cases hp.symm.trans h
        exact ⟨rfl, rfl⟩
      · intro parsed h
        cases hp.symm.trans h
  | ok parsed =>
      refine ⟨congrArg expression (ofExpr_eq text parsed.expr xs), ?_, ?_⟩
      · intro failure h
        cases hp.symm.trans h
      · intro parsed' h
        cases hp.symm.trans h
        exact ofExpr_reports text parsed.expr xs

/-- Over an accepted domain every text has its series, in the order of the texts. It is the
series of that text alone, and it reports the text over all points of the domain. -/
theorem sampleAll_answers {low high : Binary64} {count : Nat}
    (h : Series.checkDomain low high count = .ok ()) (texts : List String) :
    (Series.abscissae low high count).length = count ∧
    ∃ all, sampleAll texts low high count = .ok all ∧
      List.Forall₂ (fun text series => (sample text low high count).map (·.value) = .ok series ∧
        Series.Answers text (Series.abscissae low high count) series) texts all.value := by
  refine ⟨Series.length_abscissae low high count, ?_⟩
  rw [sampleAll, h]
  refine ⟨_, rfl, ?_⟩
  rw [List.forall₂_map_right_iff, List.forall₂_same]
  intro text _
  refine ⟨?_, Series.ofText_answers text _⟩
  rw [sample, h]
  rfl

theorem sampleAll_answers_gaps :
    ∃ all, sampleAll ["x", "x +", "1/x"] (-1) 1 3 = .ok all ∧
      all.value.map (·.status) = [.complete,
        .failed "Parse error at position 3: unexpected end of input", .gapped 1] ∧
      List.Forall₂ (fun text series => (sample text (-1) 1 3).map (·.value) = .ok series ∧
        Series.Answers text (Series.abscissae (-1) 1 3) series) ["x", "x +", "1/x"] all.value := by
  have hdomain : Series.checkDomain (-1) 1 3 = .ok () := by decide +kernel
  obtain ⟨-, all, hall, heach⟩ := sampleAll_answers hdomain ["x", "x +", "1/x"]
  have hstatus : (sampleAll ["x", "x +", "1/x"] (-1) 1 3).toOption.map
      (fun all => all.value.map (·.status)) = some [.complete,
        .failed "Parse error at position 3: unexpected end of input", .gapped 1] := by
    decide +kernel
  rw [hall] at hstatus
  exact ⟨all, hall, Option.some.inj hstatus, heach⟩

end Reckon
