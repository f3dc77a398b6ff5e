import Reckon.Proofs.Calculator.Exchange
import Reckon.Proofs.Failure

/-!
Which expressions come to the delegate, and what the outcome says about it. The
evaluator asks for symbolic evaluation by a failure that can arise anywhere in a
tree; it comes to a request only where the failing call is the whole expression.
What a request holds is not described here.
-/

namespace Reckon

variable {b : Bindings} {e : Expr} {func : String} {args : List Expr} {f : Builtin}

theorem Builtin.isHigherOrder_iff :
    f.isHigherOrder ↔ f = .integrate ∨ f = .diff ∨ f = .sum ∨ f = .limit := by
  cases f <;> simp [isHigherOrder]

theorem Builtin.accepts_iff {count : Nat} :
    f.accepts count ↔ f.arity.1 ≤ count ∧ count ≤ f.arity.2 := by
  simp [accepts]

theorem Expr.eval_call_of_callFailure {failure : Failure}
    (h : callFailure? func args.length = some failure) :
    (Expr.call func args).eval b = .error failure := by
  rw [Expr.eval, h]

theorem Expr.eval_call_of_higherOrder (hf : Builtin.ofName? func = some f)
    (ha : f.accepts args.length) (ho : f.isHigherOrder) :
    (Expr.call func args).eval b = .error (.of (.needsSymbolic func)) := by
  apply eval_call_of_callFailure
  simp [callFailure?, hf, ha, ho]

theorem Expr.eval_call_of_not_accepts (hf : Builtin.ofName? func = some f)
    (ha : ¬ f.accepts args.length) :
    (Expr.call func args).eval b =
      .error (.of (.argument (.count func f.arityText args.length))) := by
  apply eval_call_of_callFailure
  simp [callFailure?, hf, ha]

/-- A call that makes a request: its function, its body, and the operation that its
arguments ask for. -/
theorem Request.ofCall_eq_ok {request : Request} :
    Request.ofCall e = .ok request ↔
      ∃ func body rest f name op, e = .call func (body :: rest) ∧
        Builtin.ofName? func = some f ∧ f.isHigherOrder ∧
        Request.variableArgument func (body :: rest) = .ok name ∧
        Request.operationOf f (body :: rest) name = .ok op ∧ request = ⟨op, body⟩ := by
  constructor
  · intro h
    unfold Request.ofCall at h
    split at h
    · rename_i func args
      split at h
      · cases h
      · rename_i f hf
        rw [Option.filter_eq_some_iff] at hf
        cases args with
        | nil => cases h
        | cons body rest =>
            obtain ⟨name, hn, h⟩ := bind_eq_ok.1 h
            obtain ⟨op, hop, h⟩ := bind_eq_ok.1 h
            cases h
            exact ⟨func, body, rest, f, name, op, rfl, hf.1, hf.2, hn, hop, rfl⟩
    · cases h
  · rintro ⟨func, body, rest, f, name, op, rfl, hf, ho, hn, hop, rfl⟩
    have hfilter : (Builtin.ofName? func).filter Builtin.isHigherOrder = some f :=
      Option.filter_eq_some_iff.2 ⟨hf, ho⟩
    simp only [Request.ofCall, hfilter, hn, hop, ok_bind]
    rfl

/-- The expressions that are put to the delegate: calls of a higher-order function with
as many arguments as it takes, from which a request can be made, and whose first
argument does not ask for a previous answer that is not there. -/
def Routed (b : Bindings) (e : Expr) : Prop :=
  ∃ func body rest f request, e = .call func (body :: rest) ∧
    Builtin.ofName? func = some f ∧ (f = .integrate ∨ f = .diff ∨ f = .sum ∨ f = .limit) ∧
    f.accepts (body :: rest).length ∧ Request.ofCall e = .ok request ∧
    (b.answer?.isSome ∨ ¬ body.mentions answerName)

theorem Routed.eval (h : Routed b e) :
    ∃ func, e.eval b = .error (.of (.needsSymbolic func)) := by
  obtain ⟨func, body, rest, f, request, rfl, hf, ho, ha, -⟩ := h
  exact ⟨func, Expr.eval_call_of_higherOrder hf ha (Builtin.isHigherOrder_iff.2 ho)⟩

/-- A request that is made is for a routed call, once the evaluator has asked for it. -/
theorem routed_iff_of_ofCall {request : Request} {failure : Failure}
    (he : e.eval b = .error failure) (hk : failure.kind = .unsupportedForm)
    (hc : Request.ofCall e = .ok request) :
    Routed b e ↔ b.answer?.isSome ∨ ¬ request.expression.mentions answerName := by
  obtain ⟨func, body, rest, f, name, op, rfl, hf, ho, hn, hop, rfl⟩ :=
    Request.ofCall_eq_ok.1 hc
  have ha : f.accepts (body :: rest).length := by
    refine Decidable.byContradiction fun ha => ?_
    rw [Expr.eval_call_of_not_accepts hf ha] at he
    cases he
    cases hk
  constructor
  · rintro ⟨func', body', rest', f', request', heq, -, -, -, -, h⟩
    cases heq
    exact h
  · intro h
    exact ⟨func, body, rest, f, _, rfl, hf, Builtin.isHigherOrder_iff.1 ho, ha, hc, h⟩

/-- The statements that are put to the delegate. -/
def Statement.Asks (b : Bindings) : Statement → Prop
  | .expression parsed => Routed b parsed.expr
  | .equation lhs rhs =>
      b.answer?.isSome ∨ ¬ (Expr.binary .sub lhs.expr rhs.expr).mentions answerName

/-- The number that a statement has: that of a plain expression, where it has one. -/
def Statement.Value (b : Bindings) : Statement → Binary64 → Prop
  | .expression parsed, v => parsed.expr.eval b = .ok v
  | .equation _ _, _ => False

theorem Statement.Value.unique {statement : Statement} {v v' : Binary64}
    (h : statement.Value b v) (h' : statement.Value b v') : v = v' := by
  cases statement with
  | expression parsed => exact Except.ok.inj (Eq.trans (Eq.symm h) h')
  | equation lhs rhs => exact h.elim

namespace Plan

theorem request_eq_ask {op : Request.Operation} (h : b.answer?.isSome ∨ ¬ e.mentions answerName) :
    request b op e = .ask ⟨op, e.bind b⟩ := by
  rw [request, if_neg]
  cases hb : b.answer? <;> simp_all

theorem request_eq_settled {op : Request.Operation}
    (h : ¬ (b.answer?.isSome ∨ ¬ e.mentions answerName)) :
    request b op e = .settled (.ofFailure (.of .noPreviousAnswer)) := by
  rw [request, if_pos]
  cases hb : b.answer? <;> simp_all

/-- The three plans for an expression, and what each says about its value. -/
theorem ofExpression_cases (b : Bindings) (e : Expr) :
    (∃ v, e.eval b = .ok v ∧ ofExpression b e = .settled (.number v)) ∨
    (¬ Routed b e ∧ ∃ failure failure', e.eval b = .error failure ∧
      ofExpression b e = .settled (.ofFailure failure')) ∨
    (Routed b e ∧ ∃ failure request, e.eval b = .error failure ∧
      Request.ofCall e = .ok request ∧
      ofExpression b e = .ask ⟨request.op, request.expression.bind b⟩) := by
  unfold ofExpression
  cases he : e.eval b with
  | ok v => exact .inl ⟨v, rfl, rfl⟩
  | error failure =>
      by_cases hk : failure.kind = .unsupportedForm
      · cases hc : Request.ofCall e with
        | error failure' =>
            have hr : ¬ Routed b e := by
              rintro ⟨_, _, _, _, _, _, _, _, _, hc', _⟩
              cases hc.symm.trans hc'
            exact .inr (.inl ⟨hr, failure, failure', rfl, by simp only [hk, if_true]⟩)
        | ok request =>
            have hr := routed_iff_of_ofCall he hk hc
            by_cases hask : b.answer?.isSome ∨ ¬ request.expression.mentions answerName
            · refine .inr (.inr ⟨hr.2 hask, failure, request, rfl, rfl, ?_⟩)
              simp only [hk, if_true, request_eq_ask hask]
            · refine .inr (.inl ⟨mt hr.1 hask, failure, .of .noPreviousAnswer, rfl, ?_⟩)
              simp only [hk, if_true, request_eq_settled hask]
      · have hr : ¬ Routed b e := fun hr => by
          obtain ⟨func, hv⟩ := hr.eval
          cases he.symm.trans hv
          exact hk rfl
        exact .inr (.inl ⟨hr, failure, failure, rfl, by simp only [hk, if_false]⟩)

theorem ofEquation_eq_ask {lhs rhs : Expr}
    (h : b.answer?.isSome ∨ ¬ (Expr.binary .sub lhs rhs).mentions answerName) :
    ∃ request, ofEquation b lhs rhs = .ask request := by
  unfold ofEquation
  dsimp only
  split <;> exact ⟨_, request_eq_ask h⟩

theorem ofEquation_eq_settled {lhs rhs : Expr}
    (h : ¬ (b.answer?.isSome ∨ ¬ (Expr.binary .sub lhs rhs).mentions answerName)) :
    ofEquation b lhs rhs = .settled (.ofFailure (.of .noPreviousAnswer)) := by
  unfold ofEquation
  dsimp only
  split <;> exact request_eq_settled h

/-- A statement has a number, or is put to the delegate, or fails. -/
theorem ofStatement_cases (b : Bindings) (statement : Statement) :
    (∃ v, statement.Value b v ∧ ¬ statement.Asks b ∧
      ofStatement b statement = .settled (.number v)) ∨
    ((∀ v, ¬ statement.Value b v) ∧ ¬ statement.Asks b ∧
      ∃ failure, ofStatement b statement = .settled (.ofFailure failure)) ∨
    ((∀ v, ¬ statement.Value b v) ∧ statement.Asks b ∧
      ∃ request, ofStatement b statement = .ask request) := by
  cases statement with
  | expression parsed =>
      obtain ⟨v, hv, hp⟩ | ⟨hr, failure, failure', hv, hp⟩ | ⟨hr, failure, request, hv, -, hp⟩ :=
        ofExpression_cases b parsed.expr
      · refine .inl ⟨v, hv, fun hr => ?_, hp⟩
        obtain ⟨func, he⟩ := Routed.eval hr
        cases hv.symm.trans he
      · exact .inr (.inl ⟨(fun v h => nomatch hv.symm.trans h), hr, failure', hp⟩)
      · exact .inr (.inr ⟨(fun v h => nomatch hv.symm.trans h), hr, _, hp⟩)
  | equation lhs rhs =>
      by_cases h : (Statement.equation lhs rhs).Asks b
      · exact .inr (.inr ⟨fun _ hv => hv, h, ofEquation_eq_ask h⟩)
      · exact .inr (.inl ⟨fun _ hv => hv, h, _, ofEquation_eq_settled h⟩)

end Plan

namespace Metrics

variable {m : Metrics} {phase : Phase}

/-- Whether the phase has a time. -/
def Timed (m : Metrics) : Phase → Prop
  | .parse | .eval => True
  | .delegate => m.delegateMs.isSome
  | .conversion => m.conversionMs.isSome

theorem timed_charge (phase' : Phase) (ms : Binary64) :
    (m.charge phase' ms).Timed phase ↔ m.Timed phase ∨ phase = phase' := by
  cases phase <;> cases phase' <;> simp [charge, Timed]

theorem timed_foldl_charge (took : Phase → Binary64) (phases : List Phase) :
    (phases.foldl (fun m phase => m.charge phase (took phase)) m).Timed phase ↔
      m.Timed phase ∨ phase ∈ phases := by
  induction phases generalizing m with
  | nil => simp
  | cons phase' phases ih =>
      rw [List.foldl_cons, ih, timed_charge, List.mem_cons, or_assoc]

theorem timed_foldl_observe (sizes : Sizes) (trees : List Parsed) :
    (trees.foldl (fun m p =>
      m.observe (.ofNat p.expr.nodeCount) (.ofNat (p.approxBytes sizes))) m).Timed phase ↔
      m.Timed phase := by
  induction trees generalizing m with
  | nil => rfl
  | cons p trees ih =>
      rw [List.foldl_cons, ih]
      cases phase <;> rfl

end Metrics

theorem Evaluation.timed_metrics (ev : Evaluation) (sizes : Sizes) (took : Times)
    (phase : Phase) :
    (ev.metrics sizes took).Timed phase ↔ phase = .parse ∨ phase = .eval ∨ phase ∈ ev.phases := by
  have hfold : (ev.metrics sizes took).Timed phase ↔
      (ev.phases.foldl (fun (m : Metrics) phase => m.charge phase (took.ofPhase phase))
        (ev.parsed.foldl (fun (m : Metrics) p =>
            m.observe (.ofNat p.expr.nodeCount) (.ofNat (p.approxBytes sizes)))
          (Metrics.start ev.source))).Timed phase := by
    cases phase <;> rfl
  rw [hfold, Metrics.timed_foldl_charge, Metrics.timed_foldl_observe, ← or_assoc]
  cases phase <;> simp [Metrics.Timed, Metrics.start]

/-- What the delegate does not support is not implemented, and all else it fails with
is an error. -/
theorem Outcome.ofFailure_toFailure (failure : DelegateFailure) :
    Outcome.ofFailure failure.toFailure = match failure with
      | .unsupported message => .notImplemented message
      | other => .error other.message := by
  cases failure <;> rfl

namespace Calculator

/-- An evaluation reports on the requests it sent: by its outcome and by the phases
that were gone through. -/
structure Reports (reply : List Request → Reply) (ev : Evaluation) (sent : List Request) :
    Prop where
  once : sent.length ≤ 1
  symbolic : ev.outcome.symbolic?.isSome ↔ sent ≠ [] ∧ ∃ answer, reply sent = .ok answer
  failed : ∀ failure, sent ≠ [] → reply sent = .error failure →
    ev.outcome = match failure with
      | .unsupported message => .notImplemented message
      | other => .error other.message
  asked : Phase.delegate ∈ ev.phases ↔ sent ≠ []
  answered : Phase.conversion ∈ ev.phases ↔ sent ≠ [] ∧ ∃ answer, reply sent = .ok answer

variable {reply : List Request → Reply} {ev : Evaluation} {request : Request}

theorem reports_nil (ho : ev.outcome.symbolic? = none) (hd : Phase.delegate ∉ ev.phases)
    (hc : Phase.conversion ∉ ev.phases) : Reports reply ev [] := by
  refine ⟨Nat.zero_le _, ?_, ?_, ?_, ?_⟩ <;> simp [*]

theorem reports_singleton (hc : Phase.conversion ∉ ev.phases) :
    Reports reply
      { ev with
        outcome := .ofReply ev.expression request.op (reply [request])
        phases := ev.phases ++ replyPhases (reply [request]) } [request] := by
  cases hr : reply [request] with
  | ok answer =>
      refine ⟨Nat.le_refl _, ?_, ?_, ?_, ?_⟩ <;>
        simp [hr, Outcome.ofReply, Outcome.symbolic?, replyPhases]
  | error failure =>
      refine ⟨Nat.le_refl _, ?_, ?_, ?_, ?_⟩
      · cases failure <;> simp [hr, Outcome.ofReply, Outcome.ofFailure_toFailure, Outcome.symbolic?]
      · rintro failure' - hf
        cases hr.symm.trans hf
        exact Outcome.ofFailure_toFailure failure
      · simp [replyPhases]
      · simp [hr, replyPhases, hc]

theorem not_mem_phases_opening (text : String) (statement : Statement) :
    Phase.delegate ∉ (opening text statement).phases ∧
      Phase.conversion ∉ (opening text statement).phases := by
  cases statement <;> simp [opening]

theorem number_ne_ofFailure {v : Binary64} {f : Failure} :
    Outcome.ofFailure f ≠ .number v := by
  unfold Outcome.ofFailure
  split <;> simp

theorem symbolic_ofFailure (f : Failure) : (Outcome.ofFailure f).symbolic? = none := by
  unfold Outcome.ofFailure
  split <;> rfl

theorem number_ne_ofReply {asked : String} {op : Request.Operation} {r : Reply}
    {v : Binary64} : Outcome.ofReply asked op r ≠ .number v := by
  cases r with
  | ok answer => simp [Outcome.ofReply]
  | error failure => exact number_ne_ofFailure

theorem record_reports (reply : List Request → Reply) (b : Bindings) (text : String) :
    Reports reply (record reply b text).1 (record reply b text).2 ∧
    ((record reply b text).2 ≠ [] ↔
      ∃ statement, Statement.parse (normalize text) = .ok statement ∧ statement.Asks b) ∧
    ∀ v, (record reply b text).1.outcome = .number v ↔
      ∃ statement, Statement.parse (normalize text) = .ok statement ∧ statement.Value b v := by
  cases hs : Statement.parse (normalize text) with
  | error f =>
      rw [record_of_error reply b text hs]
      refine ⟨reports_nil (symbolic_ofFailure f) (by simp) (by simp), by simp, fun v => ?_⟩
      simp [number_ne_ofFailure]
  | ok statement =>
      obtain ⟨hd, hc⟩ := not_mem_phases_opening text statement
      rw [record_of_ok reply b text hs]
      obtain ⟨v, hv, ha, hp⟩ | ⟨hv, ha, f, hp⟩ | ⟨hv, ha, request, hp⟩ :=
        Plan.ofStatement_cases b statement
      · rw [hp, carryOut_settled]
        refine ⟨reports_nil rfl hd hc, by simp [ha], fun v' => ?_⟩
        constructor
        · intro h
          cases h
          exact ⟨statement, rfl, hv⟩
        · rintro ⟨_, heq, hv'⟩
          cases heq
          rw [hv.unique hv']
      · rw [hp, carryOut_settled]
        refine ⟨reports_nil (symbolic_ofFailure f) hd hc, by simp [ha], fun v => ?_⟩
        simp [number_ne_ofFailure, hv v]
      · rw [hp, carryOut_ask]
        refine ⟨reports_singleton hc, by simp [ha], fun v => ?_⟩
        simp [number_ne_ofReply, hv v]

/-- The delegate is asked at most once, and only about the statements that are put to
it; numbers come from the evaluator alone, symbolic outcomes from its answers alone.
A failed request is not implemented where the delegate does not support it, and an
error otherwise. The delegate and the conversion have a time exactly if the delegate
was asked and answered. -/
theorem evaluate_routes_exactly (reply : List Request → Reply) (b : Bindings)
    (text : String) :
    let read := Statement.parse (normalize text)
    let ev := (record reply b text).1
    let sent := (record reply b text).2
    sent.length ≤ 1 ∧
    (sent ≠ [] ↔ ∃ statement, read = .ok statement ∧ statement.Asks b) ∧
    (∀ v, ev.outcome = .number v ↔
      ∃ parsed, read = .ok (.expression parsed) ∧ parsed.expr.eval b = .ok v) ∧
    (ev.outcome.symbolic?.isSome ↔ sent ≠ [] ∧ ∃ answer, reply sent = .ok answer) ∧
    (∀ failure, sent ≠ [] → reply sent = .error failure →
      ev.outcome = match failure with
        | .unsupported message => .notImplemented message
        | other => .error other.message) ∧
    ∀ sizes took,
      ((ev.metrics sizes took).delegateMs.isSome ↔ sent ≠ []) ∧
      ((ev.metrics sizes took).conversionMs.isSome ↔
        sent ≠ [] ∧ ∃ answer, reply sent = .ok answer) := by
  intro read ev sent
  obtain ⟨hreports, hasked, hnumber⟩ := record_reports reply b text
  refine ⟨hreports.once, hasked, fun v => ?_, hreports.symbolic, hreports.failed,
    fun sizes took => ⟨?_, ?_⟩⟩
  · rw [hnumber v]
    constructor
    · rintro ⟨statement, hs, hv⟩
      cases statement with
      | expression parsed => exact ⟨parsed, hs, hv⟩
      | equation lhs rhs => exact hv.elim
    · rintro ⟨parsed, hs, hv⟩
      exact ⟨.expression parsed, hs, hv⟩
  · rw [← hreports.asked]
    simpa [Metrics.Timed] using ev.timed_metrics sizes took .delegate
  · rw [← hreports.answered]
    simpa [Metrics.Timed] using ev.timed_metrics sizes took .conversion

example : (record (fun _ => .error .timeout) .empty "diff(x^2, x)").2.length = 1 ∧
    (record (fun _ => .error .timeout) .empty "1 + diff(x^2, x)").2.length = 0 := by
  decide +kernel

end Calculator
end Reckon
