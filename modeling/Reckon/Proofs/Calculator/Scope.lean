import Reckon.Proofs.Calculator.Equations

/-!
Which variables of a call's body are replaced before it is put to the delegate, and
which of them the evaluator would look up. The request takes every name that has a
value, while a constant has no value but its own, and the variable of an operation
belongs to the operation. What happens to bounds and points is described apart.
-/

namespace Reckon

namespace Expr

variable {b b' : Bindings} {e : Expr} {name : String}

/-- The value of the variable depends on the bindings. -/
def LookedUp (name : String) : Prop := ∃ b b', (var name).eval b ≠ (var name).eval b'

theorem eval_var (b : Bindings) (name : String) : (var name).eval b = lookup b name := by
  rw [eval]

theorem lookedUp_iff : LookedUp name ↔ constant? name = none := by
  constructor
  · rintro ⟨b, b', hne⟩
    cases hc : constant? name with
    | none => rfl
    | some value =>
        refine absurd ?_ hne
        rw [eval_var, eval_var, lookup, lookup, hc]
  · intro hc
    refine ⟨.empty, Bindings.empty.set name 0, ?_⟩
    rw [eval_var, eval_var, lookup, lookup, hc]
    simp

theorem bind_var_eq_iff :
    (var name).bind b = (var name).bind b' ↔ b.get? name = b'.get? name := by
  cases h : b.get? name <;> cases h' : b'.get? name <;> simp [h, h']

/-- Two bindings make the same tree exactly if they agree on its variables. -/
theorem bind_eq_bind_iff :
    e.bind b = e.bind b' ↔ ∀ name ∈ e.variableNames, b.get? name = b'.get? name := by
  induction e with
  | number value => simp
  | var name => simpa using bind_var_eq_iff
  | binary op l r ihl ihr => simp [ihl, ihr, or_imp, forall_and]
  | neg e ih | factorial e ih => simpa using ih
  | call func args ih | list args ih =>
      have hitems : args.map (bind b) = args.map (bind b') ↔
          ∀ e ∈ args, ∀ name ∈ e.variableNames, b.get? name = b'.get? name :=
        List.map_inj_left.trans (forall₂_congr ih)
      simp only [bind_call, bind_list, call.injEq, list.injEq, true_and, hitems,
        variableNames_call, variableNames_list, List.mem_flatMap]
      exact ⟨fun h name ⟨e, he, hn⟩ => h e he name hn, fun h e he name hn => h name ⟨e, he, hn⟩⟩

end Expr

/-- What the body of an operation may take from the bindings: no constant, and not the
operation's own variable. -/
def Bindings.inScope (own : String) (b : Bindings) : Bindings :=
  ⟨b.entries.filter fun (key, _) => key != own && (constant? key).isNone⟩

theorem Bindings.get?_filter (p : String → Bool) (entries : List (String × Binary64))
    (name : String) :
    get? ⟨entries.filter fun (key, _) => p key⟩ name =
      if p name then get? ⟨entries⟩ name else none := by
  induction entries with
  | nil => simp [get?]
  | cons entry entries ih =>
      by_cases hn : entry.1 = name
      · subst hn
        by_cases hp : p entry.1
        · simp [get?, hp]
        · simpa [hp] using ih
      · have hget : get? ⟨entry :: entries⟩ name = get? ⟨entries⟩ name := by simp [get?, hn]
        rw [hget, ← ih]
        by_cases hp : p entry.1
        · simp [get?, hp, hn]
        · simp [hp]

variable {b : Bindings} {own name : String}

theorem Bindings.get?_inScope : (b.inScope own).get? name =
    if name ≠ own ∧ constant? name = none then b.get? name else none := by
  rw [inScope, get?_filter fun key => key != own && (constant? key).isNone]
  simp

/-- Binding stays in scope exactly if what has a value is looked up, and is not the
operation's own variable. -/
theorem Expr.bind_inScope_iff {e : Expr} :
    e.bind b = e.bind (b.inScope own) ↔
      ∀ name, e.mentions name → (b.get? name).isSome → name ≠ own ∧ LookedUp name := by
  have hname (name : String) : b.get? name = (b.inScope own).get? name ↔
      ((b.get? name).isSome → name ≠ own ∧ LookedUp name) := by
    rw [Bindings.get?_inScope, lookedUp_iff]
    cases b.get? name <;> simp
  simp only [bind_eq_bind_iff, hname, mentions, List.contains_eq_mem, decide_eq_true_eq]

namespace Request

variable {f : Builtin} {func : String} {body : Expr} {rest : List Expr} {op : Operation}

/-- The variable of an operation is the second argument, or the default. -/
theorem variableArgument_eq_ok :
    variableArgument func (body :: rest) = .ok own ↔
      rest = [] ∧ own = defaultVariable ∨
        rest.head? = some (.var own) ∧ constant? own = none := by
  cases rest with
  | nil => simp [variableArgument, eq_comm]
  | cons arg rest =>
      cases arg with
      | var name =>
          have hcheck : variableArgument func (body :: .var name :: rest) = .ok own ↔
              constant? name = none ∧ name = own := by
            by_cases hc : constant? name = none <;> simp [variableArgument, hc]
          rw [hcheck]
          constructor
          · rintro ⟨hc, rfl⟩
            exact .inr ⟨rfl, hc⟩
          · rintro (⟨h, -⟩ | ⟨h, hc⟩)
            · cases h
            · cases h
              exact ⟨hc, rfl⟩
      | _ => simp [variableArgument]

theorem variableName?_of_operationOf (h : operationOf f (body :: rest) own = .ok op) :
    op.variableName? = some own := by
  cases f with
  | diff =>
      obtain ⟨order, -, h⟩ := bind_eq_ok.1 h
      cases h
      rfl
  | integrate =>
      unfold operationOf at h
      dsimp only at h
      split at h <;> cases h <;> rfl
  | sum =>
      obtain ⟨lower, -, h⟩ := bind_eq_ok.1 h
      obtain ⟨upper, -, h⟩ := bind_eq_ok.1 h
      cases h
      rfl
  | limit =>
      obtain ⟨point, -, h⟩ := bind_eq_ok.1 h
      cases h
      rfl
  | _ => cases h

end Request

theorem Plan.ask_of_ofExpression {e : Expr} {request : Request}
    (h : ofExpression b e = .ask request) :
    ∃ request', Request.ofCall e = .ok request' ∧
      request = ⟨request'.op, request'.expression.bind b⟩ := by
  obtain ⟨v, -, hp⟩ | ⟨-, failure, failure', -, hp⟩ | ⟨-, failure, request', -, hc, hp⟩ :=
    ofExpression_cases b e
  · cases hp.symm.trans h
  · cases hp.symm.trans h
  · cases hp.symm.trans h
    exact ⟨request', hc, rfl⟩

namespace Calculator
open Reckon.Expr

/-- The first argument of a text that reads as a call. -/
theorem exists_body_of_check (text : String) (p : Expr → Bool)
    (h : (match Statement.parse (normalize text) with
      | .ok (.expression parsed) => parsed.expr.arguments.head?.any p
      | _ => false) = true) :
    ∃ parsed body, Statement.parse (normalize text) = .ok (.expression parsed) ∧
      parsed.expr.arguments.head? = some body ∧ p body = true := by
  split at h
  · rename_i parsed hs
    obtain ⟨body, hbody, hp⟩ := (Option.any_eq_true p _).1 h
    exact ⟨parsed, body, hs, hbody, hp⟩
  · cases h

/-- The body of a request is the first argument of the call with every name that has a
value filled in. It is the one that scoping allows exactly if no name with a value that
the body mentions is a constant or the variable of the operation. -/
theorem body_in_scope_iff (reply : List Request → Reply) (b : Bindings) (text : String) :
    ∀ request ∈ (record reply b text).2, ∀ parsed,
      Statement.parse (normalize text) = .ok (.expression parsed) →
      ∃ func body rest own, parsed.expr = .call func (body :: rest) ∧
        request.op.variableName? = some own ∧
        (rest = [] ∧ own = defaultVariable ∨ rest.head? = some (.var own)) ∧
        Filled b body request.expression ∧
        (Filled (b.inScope own) body request.expression ↔
          ∀ name, body.mentions name → (b.get? name).isSome → name ≠ own ∧ LookedUp name) := by
  intro request hm parsed hs
  obtain ⟨statement, hs', hp⟩ := (mem_record_iff reply b text).1 hm
  cases hs.symm.trans hs'
  obtain ⟨request', hc, hask⟩ := Plan.ask_of_ofExpression hp
  obtain ⟨func, body, rest, f, own, op, he, -, -, hn, hop, rfl⟩ := Request.ofCall_eq_ok.1 hc
  subst hask
  refine ⟨func, body, rest, own, he, Request.variableName?_of_operationOf hop, ?_,
    filled_iff.2 rfl, filled_iff.trans bind_inScope_iff⟩
  exact (Request.variableArgument_eq_ok.1 hn).imp_right And.left

/-- A parameter is filled in, and a variable of the same name as none that is bound. -/
theorem body_in_scope_iff_parameter :
    let b := ((Bindings.empty.set "x" 5).set "pi" 4).set "a" 3
    ∃ request ∈ (record (fun _ => .error .timeout) b "diff(a*y^2, y)").2, ∃ body,
      body.variableNames = ["a", "y"] ∧ Filled (b.inScope "y") body request.expression := by
  intro b
  obtain ⟨parsed, body, hs, hbody, hnames⟩ :=
    exists_body_of_check "diff(a*y^2, y)" (fun body => body.variableNames == ["a", "y"])
      (by decide +kernel)
  have hvariable : (record (fun _ => .error .timeout) b "diff(a*y^2, y)").2.map
      (·.op.variableName?) = [some "y"] := by decide +kernel
  obtain ⟨request, hsent, hop⟩ := List.map_eq_singleton_iff.1 hvariable
  have hm : request ∈ (record (fun _ => .error .timeout) b "diff(a*y^2, y)").2 := by
    rw [hsent]
    exact List.mem_singleton_self request
  obtain ⟨_, _, rest, own, he, hown, -, -, hiff⟩ := body_in_scope_iff _ b _ request hm parsed hs
  cases hop.symm.trans hown
  rw [he] at hbody
  cases hbody
  rw [beq_iff_eq] at hnames
  refine ⟨request, hm, body, hnames, hiff.2 fun name hname hvalue => ?_⟩
  obtain rfl | rfl : name = "a" ∨ name = "y" := by simpa [mentions, hnames] using hname
  · exact ⟨by decide, lookedUp_iff.2 rfl⟩
  · simp [b] at hvalue

/-- Where the operation's own variable has a value, nothing is left to differentiate
by, and a constant takes the value of its name. -/
theorem own_variable_and_constant_filled :
    (∃ parsed body, Statement.parse (normalize "diff(x^2, x)") = .ok (.expression parsed) ∧
      parsed.expr.arguments.head? = some body ∧ body.mentions "x" ∧
      ∃ request ∈ (record (fun _ => .error .timeout) (Bindings.empty.set "x" 3)
          "diff(x^2, x)").2,
        request.op.variableName? = some "x" ∧ ¬ request.expression.mentions "x") ∧
    ∃ parsed body, Statement.parse (normalize "diff(pi*x, x)") = .ok (.expression parsed) ∧
      parsed.expr.arguments.head? = some body ∧ body.mentions "pi" ∧
      ∃ request ∈ (record (fun _ => .error .timeout) (Bindings.empty.set "pi" 3)
          "diff(pi*x, x)").2, ¬ request.expression.mentions "pi" := by
  obtain ⟨parsed, body, hs, hbody, hx⟩ := exists_body_of_check "diff(x^2, x)"
    (fun body => body.mentions "x") (by decide +kernel)
  obtain ⟨parsed', body', hs', hbody', hpi⟩ := exists_body_of_check "diff(pi*x, x)"
    (fun body => body.mentions "pi") (by decide +kernel)
  have hown : ((record (fun _ => .error .timeout) (Bindings.empty.set "x" 3)
      "diff(x^2, x)").2.any fun request =>
        request.op.variableName? == some "x" && !request.expression.mentions "x") = true := by
    decide +kernel
  have hconstant : ((record (fun _ => .error .timeout) (Bindings.empty.set "pi" 3)
      "diff(pi*x, x)").2.any fun request => !request.expression.mentions "pi") = true := by
    decide +kernel
  rw [List.any_eq_true] at hown hconstant
  exact ⟨⟨parsed, body, hs, hbody, hx, by simpa using hown⟩,
    parsed', body', hs', hbody', hpi, by simpa using hconstant⟩

end Calculator
end Reckon
