import Reckon.Proofs.Calculator.Routing
import Reckon.Proofs.Expr.Variables

/-!
What a request holds besides its body: bounds, limits and points. Variables with a
value are replaced in the body and a previous answer that is not there is refused in
the body; neither is done to the operands, which reach the delegate as they were
written.
-/

namespace Reckon

/-- The expressions of an operation, apart from the body of the request. -/
def Request.Operation.operands : Operation → List Expr
  | .integrate _ (some (lower, upper)) => [lower, upper]
  | .sum _ lower upper => [lower, upper]
  | .limit _ point => [point]
  | _ => []

namespace Expr

def arguments : Expr → List Expr
  | call _ args => args
  | _ => []

/-- No variable of the tree is the previous answer or has a value. -/
def Resolved (b : Bindings) (e : Expr) : Prop :=
  ∀ name, e.mentions name → name ≠ answerName ∧ b.get? name = none

variable {b : Bindings} {e : Expr}

theorem resolved_number (v : Binary64) : (number v).Resolved b := by
  simp [Resolved, mentions]

/-- Where the previous answer is there or not asked for, binding resolves a tree. -/
theorem resolved_bind (h : b.answer?.isSome ∨ ¬ e.mentions answerName) :
    (e.bind b).Resolved b := by
  intro name hm
  obtain ⟨hm, hn⟩ := mentions_bind.1 hm
  refine ⟨?_, hn⟩
  rintro rfl
  obtain h | h := h
  · rw [Bindings.answer?, hn] at h
    cases h
  · exact h hm

end Expr

variable {b : Bindings} {f : Builtin} {args : List Expr} {name : String}
  {op : Request.Operation}

theorem Request.requiredArgument_eq_ok {index : Nat} {arg : Expr} :
    Request.requiredArgument f args index = .ok arg ↔ args[index]? = some arg := by
  unfold Request.requiredArgument
  cases args[index]? <;> simp

theorem Request.number_of_orderArgument {order : Nat} (h : Request.orderArgument args = .ok order)
    {arg : Expr} (ha : args[2]? = some arg) : ∃ v, arg = .number v := by
  simp only [Request.orderArgument, ha] at h
  split at h
  · exact ⟨_, rfl⟩
  · cases h

/-- The operands are the arguments from the third on, word for word. The order of a
derivative, which is no operand, is a number. -/
theorem Request.operands_of_operationOf (ha : f.accepts args.length)
    (h : Request.operationOf f args name = .ok op) :
    op.operands = args.drop 2 ∨
      op.operands = [] ∧ ∀ arg ∈ args.drop 2, ∃ v, arg = .number v := by
  cases f with
  | diff =>
      obtain ⟨order, ho, h⟩ := bind_eq_ok.1 h
      cases h
      refine .inr ⟨rfl, fun arg hm => Request.number_of_orderArgument ho ?_⟩
      have hlen : args.length ≤ 3 := (Builtin.accepts_iff.1 ha).2
      obtain ⟨i, hi, rfl⟩ := List.getElem_of_mem hm
      have h0 : i = 0 := by
        rw [List.length_drop] at hi
        omega
      subst h0
      simp
  | integrate =>
      unfold Request.operationOf at h
      dsimp only at h
      split at h <;> cases h <;> exact .inl rfl
  | sum =>
      obtain ⟨lower, hl, h⟩ := bind_eq_ok.1 h
      obtain ⟨upper, hu, h⟩ := bind_eq_ok.1 h
      cases h
      rw [Request.requiredArgument_eq_ok] at hl hu
      have hlen : args.length ≤ 4 := (Builtin.accepts_iff.1 ha).2
      refine .inl ?_
      obtain ⟨h2, rfl⟩ := List.getElem?_eq_some_iff.1 hl
      obtain ⟨h3, rfl⟩ := List.getElem?_eq_some_iff.1 hu
      rw [List.drop_eq_getElem_cons h2, List.drop_eq_getElem_cons h3,
        List.drop_eq_nil_of_le hlen]
      rfl
  | limit =>
      obtain ⟨point, hp, h⟩ := bind_eq_ok.1 h
      cases h
      rw [Request.requiredArgument_eq_ok] at hp
      have hlen : args.length ≤ 3 := (Builtin.accepts_iff.1 ha).2
      refine .inl ?_
      obtain ⟨h2, rfl⟩ := List.getElem?_eq_some_iff.1 hp
      rw [List.drop_eq_getElem_cons h2, List.drop_eq_nil_of_le hlen]
      rfl
  | _ => cases h

theorem Plan.resolved_of_request {e : Expr} {request : Request}
    (h : Plan.request b op e = .ask request) :
    request.op = op ∧ request.expression.Resolved b := by
  by_cases hask : b.answer?.isSome ∨ ¬ e.mentions answerName
  · rw [Plan.request_eq_ask hask] at h
    cases h
    exact ⟨rfl, Expr.resolved_bind hask⟩
  · rw [Plan.request_eq_settled hask] at h
    cases h

/-- The request of an expression: its body is resolved, its operands are as written. -/
theorem Plan.operands_of_ofExpression {e : Expr} {request : Request}
    (h : Plan.ofExpression b e = .ask request) :
    request.expression.Resolved b ∧
      ((∀ operand ∈ request.op.operands, operand.Resolved b) ↔
        ∀ arg ∈ e.arguments.drop 2, arg.Resolved b) := by
  obtain ⟨v, hv, hp⟩ | ⟨hr, failure, failure', hv, hp⟩ | ⟨hr, failure, request', hv, hc, hp⟩ :=
    Plan.ofExpression_cases b e
  · cases hp.symm.trans h
  · cases hp.symm.trans h
  · cases hp.symm.trans h
    obtain ⟨func, body, rest, f, _, rfl, hf, -, ha, hc', hask⟩ := hr
    obtain ⟨_, _, _, f', name, op, heq, hf', -, -, hop, rfl⟩ := Request.ofCall_eq_ok.1 hc
    cases heq
    cases hf.symm.trans hf'
    refine ⟨Expr.resolved_bind hask, ?_⟩
    obtain hops | ⟨hops, hnum⟩ := Request.operands_of_operationOf ha hop
    · rw [hops]
      rfl
    · rw [hops]
      refine iff_of_true (by simp) fun arg hm => ?_
      obtain ⟨v, rfl⟩ := hnum arg hm
      exact Expr.resolved_number v

theorem Plan.operands_of_ofEquation {lhs rhs : Expr} {request : Request}
    (h : Plan.ofEquation b lhs rhs = .ask request) :
    request.expression.Resolved b ∧ request.op.operands = [] := by
  unfold Plan.ofEquation at h
  dsimp only at h
  split at h <;>
    obtain ⟨hop, hr⟩ := Plan.resolved_of_request h <;>
    exact ⟨hr, by rw [hop]; rfl⟩

/-- Without a previous answer, a call that lacks nothing else is refused if its first
argument asks for one, and makes a request if it does not. -/
theorem Plan.ofExpression_of_no_answer {e : Expr} {answer : Binary64} (hb : b.answer? = none)
    (hr : Routed (b.setAnswer answer) e) :
    ((∃ body ∈ e.arguments.head?, body.mentions answerName) ∧
      Plan.ofExpression b e = .settled (.ofFailure (.of .noPreviousAnswer))) ∨
    ((¬ ∃ body ∈ e.arguments.head?, body.mentions answerName) ∧
      ∃ request, Plan.ofExpression b e = .ask request) := by
  obtain ⟨func, body, rest, f, request, rfl, hf, ho, ha, hc, -⟩ := hr
  have hv := Expr.eval_call_of_higherOrder (b := b) hf ha (Builtin.isHigherOrder_iff.2 ho)
  obtain ⟨_, _, _, _, _, op, heq, -, -, -, -, rfl⟩ := Request.ofCall_eq_ok.1 hc
  cases heq
  have hplan : Plan.ofExpression b (.call func (body :: rest)) = Plan.request b op body := by
    simp only [Plan.ofExpression, hv, hc]
    rfl
  rw [hplan]
  by_cases hm : body.mentions answerName
  · exact .inl ⟨⟨body, rfl, hm⟩, Plan.request_eq_settled (by simp [hb, hm])⟩
  · exact .inr ⟨by simp [Expr.arguments, hm], _, Plan.request_eq_ask (.inr hm)⟩

namespace Calculator

/-- The operands of a request are free of the previous answer and of variables with a
value exactly if the arguments that they come from are, while its body always is; and
without a previous answer, a call that lacks nothing else is refused exactly if its
first argument asks for one, whatever its other arguments ask for. -/
theorem operands_resolved_iff (reply : List Request → Reply) (b : Bindings)
    (text : String) :
    let read := Statement.parse (normalize text)
    let ev := (record reply b text).1
    let sent := (record reply b text).2
    (∀ request ∈ sent, request.expression.Resolved b ∧
      ((∀ operand ∈ request.op.operands, operand.Resolved b) ↔
        ∀ parsed, read = .ok (.expression parsed) →
          ∀ arg ∈ parsed.expr.arguments.drop 2, arg.Resolved b)) ∧
    ∀ parsed answer, read = .ok (.expression parsed) → b.answer? = none →
      Routed (b.setAnswer answer) parsed.expr →
      ((sent = [] ∧ ev.outcome = .error "No previous answer to use for Ans") ↔
        ∃ body ∈ parsed.expr.arguments.head?, body.mentions answerName) := by
  intro read ev sent
  refine ⟨fun request hm => ?_, fun parsed answer hs hb hr => ?_⟩
  · obtain ⟨statement, hs, hp⟩ := (mem_record_iff reply b text).1 hm
    cases statement with
    | expression parsed =>
        obtain ⟨hbody, hops⟩ := Plan.operands_of_ofExpression hp
        refine ⟨hbody, hops.trans ⟨fun h parsed' hs' => ?_, fun h => h parsed hs⟩⟩
        cases hs.symm.trans hs'
        exact h
    | equation lhs rhs =>
        obtain ⟨hbody, hops⟩ := Plan.operands_of_ofEquation hp
        refine ⟨hbody, iff_of_true (by simp [hops]) fun parsed' hs' => ?_⟩
        cases hs.symm.trans hs'
  · have hrec : record reply b text =
        (carryOut (Delegate.recording reply) (opening text (.expression parsed))
          (.ofExpression b parsed.expr)).run [] := record_of_ok reply b text hs
    obtain ⟨hm, hp⟩ | ⟨hm, request, hp⟩ := Plan.ofExpression_of_no_answer hb hr
    · rw [hp, carryOut_settled] at hrec
      exact iff_of_true ⟨congrArg Prod.snd hrec, congrArg (·.1.outcome) hrec⟩ hm
    · rw [hp, carryOut_ask] at hrec
      refine iff_of_false (fun h => ?_) hm
      cases (congrArg Prod.snd hrec).symm.trans h.1

/-- Bounds keep the previous answer: where it has a value, the upper bound is sent as
it was written, and where it has none, the request is sent all the same. -/
theorem bounds_keep_answer :
    (∃ request ∈ (record (fun _ => .error .timeout) (.withAnswer ⟨0x4018000000000000⟩)
        "integrate(x, x, 0, Ans)").2,
      ∃ operand ∈ request.op.operands, operand.mentions answerName) ∧
    (record (fun _ => .error .timeout) .empty "integrate(x, x, 0, Ans)").2 ≠ [] := by
  have hbound : ((record (fun _ => .error .timeout) (.withAnswer ⟨0x4018000000000000⟩)
      "integrate(x, x, 0, Ans)").2.any fun request =>
        request.op.operands.any fun operand => operand.mentions answerName) = true := by
    decide +kernel
  have hsent : ((record (fun _ => .error .timeout) .empty
      "integrate(x, x, 0, Ans)").2.isEmpty) = false := by decide +kernel
  simp only [List.any_eq_true] at hbound
  exact ⟨hbound, fun h => by rw [h] at hsent; cases hsent⟩

end Calculator
end Reckon
