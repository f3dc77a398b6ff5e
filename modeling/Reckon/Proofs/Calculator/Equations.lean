import Reckon.Proofs.Calculator.Operands
import Reckon.Proofs.Expr.Reading
import Reckon.Proofs.Statement

/-!
The request of an equation: the difference of its sides with every known value filled
in, to be solved for the first unknown of the text or, if there is none, to be verified.
What the delegate makes of the request is not described here.
-/

namespace Reckon

namespace Expr

/-- The second tree is the first one with every variable that has a value replaced by
it. The items of a call or a list come in pairs. -/
inductive Filled (b : Bindings) : Expr → Expr → Prop where
  | number (value : Binary64) : Filled b (number value) (number value)
  | known {name value} : b.get? name = some value → Filled b (var name) (number value)
  | unknown {name} : b.get? name = none → Filled b (var name) (var name)
  | binary {op l r l' r'} : Filled b l l' → Filled b r r' →
      Filled b (binary op l r) (binary op l' r')
  | neg {e e'} : Filled b e e' → Filled b (neg e) (neg e')
  | factorial {e e'} : Filled b e e' → Filled b (factorial e) (factorial e')
  | call {func} {pairs : List (Expr × Expr)} : (∀ pair ∈ pairs, Filled b pair.1 pair.2) →
      Filled b (call func (pairs.map (·.1))) (call func (pairs.map (·.2)))
  | list {pairs : List (Expr × Expr)} : (∀ pair ∈ pairs, Filled b pair.1 pair.2) →
      Filled b (list (pairs.map (·.1))) (list (pairs.map (·.2)))

variable {b : Bindings} {e e' : Expr}

theorem Filled.eq_bind (h : Filled b e e') : e' = e.bind b := by
  induction h with
  | number value => rfl
  | known hv => simp [hv]
  | unknown hv => simp [hv]
  | binary _ _ ihl ihr => rw [bind_binary, ← ihl, ← ihr]
  | neg _ ih => rw [bind_neg, ← ih]
  | factorial _ ih => rw [bind_factorial, ← ih]
  | call _ ih =>
      rw [bind_call, List.map_map, List.map_congr_left ih]
      rfl
  | list _ ih =>
      rw [bind_list, List.map_map, List.map_congr_left ih]
      rfl

/-- Items paired with what binding makes of them. -/
theorem filled_bind_pairs {es : List Expr} (h : ∀ e ∈ es, Filled b e (e.bind b)) :
    (∀ pair ∈ es.map fun e => (e, e.bind b), Filled b pair.1 pair.2) ∧
      (es.map fun e => (e, e.bind b)).map (·.1) = es ∧
      (es.map fun e => (e, e.bind b)).map (·.2) = es.map (bind b) := by
  simpa [Function.comp_def] using h

theorem filled_bind (b : Bindings) (e : Expr) : Filled b e (e.bind b) := by
  induction e with
  | number value => exact .number value
  | var name =>
      rw [bind_var]
      cases hv : b.get? name with
      | some value => exact .known hv
      | none => exact .unknown hv
  | binary op l r ihl ihr => exact .binary ihl ihr
  | neg e ih => exact .neg ih
  | factorial e ih => exact .factorial ih
  | call func args ih =>
      obtain ⟨hp, h1, h2⟩ := filled_bind_pairs ih
      have hcall := @Filled.call b func _ hp
      rw [h1, h2] at hcall
      rwa [bind_call]
  | list items ih =>
      obtain ⟨hp, h1, h2⟩ := filled_bind_pairs ih
      have hlist := Filled.list hp
      rw [h1, h2] at hlist
      rwa [bind_list]

/-- There is one tree with the values filled in, the one that binding makes. -/
theorem filled_iff : Filled b e e' ↔ e' = e.bind b :=
  ⟨Filled.eq_bind, fun h => h ▸ filled_bind b e⟩

/-- A name that stands for nothing known: not the previous answer, no constant, and
without a value. -/
def Unknown (b : Bindings) (name : String) : Prop :=
  name ≠ answerName ∧ name ≠ "pi" ∧ name ≠ "e" ∧ b.get? name = none

/-- The unknown comes first among the names. -/
def FirstUnknown (b : Bindings) (name : String) (names : List String) : Prop :=
  Unknown b name ∧ ∃ before after, names = before ++ name :: after ∧
    ∀ other ∈ before, ¬ Unknown b other

theorem unknown_iff {name : String} :
    (name != answerName && (constant? name).isNone && (b.get? name).isNone) = true ↔
      Unknown b name := by
  simp only [Bool.and_eq_true, bne_iff_ne, Option.isNone_iff_eq_none, constant?_eq_none,
    Unknown, and_assoc]

theorem firstFree?_eq_some {name : String} :
    e.firstFree? b = some name ↔ FirstUnknown b name e.variableNames := by
  rw [firstFree?, List.find?_eq_some_iff_append, unknown_iff]
  refine and_congr_right fun _ => exists_congr fun before => exists_congr fun after =>
    and_congr_right fun _ => forall_congr' fun other => imp_congr_right fun _ => ?_
  rw [← unknown_iff, Bool.not_eq_true, Bool.not_eq_eq_eq_not, Bool.not_true]

theorem firstFree?_eq_none :
    e.firstFree? b = none ↔ ∀ name ∈ e.variableNames, ¬ Unknown b name := by
  rw [firstFree?, List.find?_eq_none]
  exact forall_congr' fun name => imp_congr_right fun _ => not_congr unknown_iff

end Expr

namespace Plan
open Reckon.Expr

variable {b : Bindings} {lhs rhs : Expr}

/-- The operation of an equation: to solve it for the first unknown of its sides, or to
verify it if they have none. -/
def Chooses (b : Bindings) (names : List String) (op : Request.Operation) : Prop :=
  (∃ name, op = .solve name ∧ FirstUnknown b name names) ∨
    op = .verify ∧ ∀ name ∈ names, ¬ Unknown b name

theorem ofEquation_eq_request (b : Bindings) (lhs rhs : Expr) :
    ∃ op, ofEquation b lhs rhs = request b op (.binary .sub lhs rhs) ∧
      Chooses b (lhs.variableNames ++ rhs.variableNames) op := by
  rw [← variableNames_binary .sub lhs rhs]
  unfold ofEquation
  dsimp only
  split
  · rename_i name hf
    exact ⟨_, rfl, .inl ⟨name, rfl, firstFree?_eq_some.1 hf⟩⟩
  · rename_i hf
    exact ⟨_, rfl, .inr ⟨rfl, firstFree?_eq_none.1 hf⟩⟩

end Plan

namespace Expr

variable {b : Bindings} {e : Expr}

theorem mentions_of_firstUnknown {name : String} (h : FirstUnknown b name e.variableNames) :
    (e.bind b).mentions name := by
  obtain ⟨hu, before, after, hn, -⟩ := h
  exact mentions_bind.2 ⟨by simp [mentions, hn], hu.2.2.2⟩

/-- Without an unknown, only constants stay open. -/
theorem constant_of_mentions_bind (hask : b.answer?.isSome ∨ ¬ e.mentions answerName)
    (h : ∀ name ∈ e.variableNames, ¬ Unknown b name) {name : String}
    (hm : (e.bind b).mentions name) : name = "pi" ∨ name = "e" := by
  obtain ⟨hne, hv⟩ := resolved_bind hask name hm
  have hname : name ∈ e.variableNames := by simpa [mentions] using (mentions_bind.1 hm).1
  refine Decidable.byContradiction fun hc => h name hname ?_
  exact ⟨hne, fun hpi => hc (.inl hpi), fun he => hc (.inr he), hv⟩

end Expr

namespace Calculator
open Reckon.Expr

/-- An equation makes one request: the difference of its sides, every known value filled
in, to be solved for the leftmost unknown of the text, which the difference still holds.
Without an unknown it is to be verified, and only constants are left open in it. A
previous answer that is asked for and not there ends the evaluation instead. -/
theorem equation_asks_once (reply : List Request → Reply) (b : Bindings) (text : String)
    {lhs rhs : Parsed} (h : Statement.parse (normalize text) = .ok (.equation lhs rhs)) :
    let sent := (record reply b text).2
    let outcome := (record reply b text).1.outcome
    ∃ left right leftTokens rightTokens,
      (normalize text).toList = left ++ '=' :: right ∧ '=' ∉ left ++ right ∧
      Token.ofChars 0 left = .ok leftTokens ∧
      Token.ofChars (left.length + 1) right = .ok rightTokens ∧
      (b.answer?.isSome ∨ ¬ lhs.expr.mentions answerName ∧ ¬ rhs.expr.mentions answerName →
        ∃ op l r, sent = [⟨op, .binary .sub l r⟩] ∧
          Filled b lhs.expr l ∧ Filled b rhs.expr r ∧
          ((∃ name, op = .solve name ∧
              FirstUnknown b name (Token.variables (leftTokens ++ rightTokens)) ∧
              (binary .sub l r).mentions name) ∨
            op = .verify ∧
              (∀ name ∈ Token.variables (leftTokens ++ rightTokens), ¬ Unknown b name) ∧
              ∀ name, (binary .sub l r).mentions name → name = "pi" ∨ name = "e")) ∧
      (b.answer? = none → lhs.expr.mentions answerName ∨ rhs.expr.mentions answerName →
        sent = [] ∧ outcome = .error "No previous answer to use for Ans") := by
  intro sent outcome
  obtain ⟨left, right, hsplit, hnot, hl, hr⟩ := Statement.sides_of_parse h
  obtain ⟨leftTokens, hlt, hlv⟩ := variableNames_of_parseAt hl
  obtain ⟨rightTokens, hrt, hrv⟩ := variableNames_of_parseAt hr
  have hnames : (binary .sub lhs.expr rhs.expr).variableNames =
      Token.variables (leftTokens ++ rightTokens) := by
    rw [variableNames_binary, hlv, hrv, Token.variables, Token.variables, Token.variables,
      List.filterMap_append]
  have hmention : (binary .sub lhs.expr rhs.expr).mentions answerName ↔
      lhs.expr.mentions answerName ∨ rhs.expr.mentions answerName := by
    simp [mentions]
  obtain ⟨op, hplan, hop⟩ := Plan.ofEquation_eq_request b lhs.expr rhs.expr
  rw [← variableNames_binary .sub] at hop
  have hrec : record reply b text =
      (carryOut (Delegate.recording reply) (opening text (.equation lhs rhs))
        (.request b op (.binary .sub lhs.expr rhs.expr))).run [] :=
    (record_of_ok reply b text h).trans (by rw [← hplan]; rfl)
  refine ⟨left, right, leftTokens, rightTokens, hsplit, hnot, hlt, hrt, ?_, ?_⟩
  · intro hans
    have hask : b.answer?.isSome ∨ ¬ (binary .sub lhs.expr rhs.expr).mentions answerName := by
      rwa [hmention, not_or]
    rw [Plan.request_eq_ask hask, carryOut_ask] at hrec
    refine ⟨op, lhs.expr.bind b, rhs.expr.bind b, congrArg Prod.snd hrec, filled_iff.2 rfl,
      filled_iff.2 rfl, ?_⟩
    rw [← hnames, ← bind_binary]
    obtain ⟨name, rfl, hfirst⟩ | ⟨rfl, hnone⟩ := hop
    · exact .inl ⟨name, rfl, hfirst, mentions_of_firstUnknown hfirst⟩
    · exact .inr ⟨rfl, hnone, fun name hm => constant_of_mentions_bind hask hnone hm⟩
  · intro hb hm
    rw [Plan.request_eq_settled (by simp [hb, hmention, hm]), carryOut_settled] at hrec
    exact ⟨congrArg Prod.snd hrec, congrArg (·.1.outcome) hrec⟩

/-- The previous answer is filled in below calls and lists, and constants are passed over. -/
theorem equation_asks_once_answer :
    let text := "solve 2*[Ans, sqrt(pi + y)] = x^Ans"
    let sent := (record (fun _ => .error .timeout) (.withAnswer ⟨0x4018000000000000⟩) text).2
    (sent.map fun request => request.op.variableName?) = [some "y"] ∧
    ∃ lhs rhs op l r, Statement.parse (normalize text) = .ok (.equation lhs rhs) ∧
      sent = [⟨op, .binary .sub l r⟩] ∧
      Filled (.withAnswer ⟨0x4018000000000000⟩) lhs.expr l ∧
      Filled (.withAnswer ⟨0x4018000000000000⟩) rhs.expr r := by
  intro text sent
  have hread : (match Statement.parse (normalize text) with
      | .ok (.equation _ _) => true
      | _ => false) = true := by decide +kernel
  refine ⟨by decide +kernel, ?_⟩
  split at hread
  · rename_i lhs rhs h
    obtain ⟨_, _, _, _, -, -, -, -, hsent, -⟩ :=
      equation_asks_once (fun _ => .error .timeout) (.withAnswer ⟨0x4018000000000000⟩) text h
    obtain ⟨op, l, r, hs, hl, hr, -⟩ := hsent (.inl rfl)
    exact ⟨lhs, rhs, op, l, r, h, hs, hl, hr⟩
  · cases hread

end Calculator
end Reckon
