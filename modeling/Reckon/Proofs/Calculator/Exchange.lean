import Reckon.Calculator

/-!
What an evaluation and the delegate say to each other. The delegate of this module
notes the requests it gets and replies in the light of all of them, so what holds for
every reply holds whatever a delegate does. A delegate that never returns is not
among them: the time it may take ends with a reply.
-/

namespace Reckon

/-- A delegate that notes each request behind those before it. -/
def Delegate.recording (reply : List Request → Reply) : Delegate (StateM (List Request)) :=
  fun request => do
    modify (· ++ [request])
    return reply (← get)

namespace Calculator

/-- An evaluation and the requests it sends, in their order. -/
def record (reply : List Request → Reply) (b : Bindings) (text : String) :
    Evaluation × List Request :=
  (evaluate (Delegate.recording reply) b text).run []

/-- The evaluation of a statement that was read, before its plan is carried out. -/
def opening (text : String) : Statement → Evaluation
  | .expression parsed => ⟨text, normalize text, default, [parsed], [.parse, .eval]⟩
  | .equation lhs rhs => ⟨text, normalize text, default, [lhs, rhs], [.parse]⟩

/-- The phases that a reply adds. -/
def replyPhases : Reply → List Phase
  | .ok _ => [.delegate, .conversion]
  | .error _ => [.delegate]

variable (reply : List Request → Reply) (b : Bindings) (text : String)

theorem carryOut_settled (ev : Evaluation) (outcome : Outcome) :
    (carryOut (Delegate.recording reply) ev (.settled outcome)).run [] =
      ({ ev with outcome := outcome }, []) := rfl

theorem carryOut_ask (ev : Evaluation) (request : Request) :
    (carryOut (Delegate.recording reply) ev (.ask request)).run [] =
      ({ ev with
          outcome := .ofReply ev.expression request.op (reply [request])
          phases := ev.phases ++ replyPhases (reply [request]) }, [request]) := by
  have hrun : (carryOut (Delegate.recording reply) ev (.ask request)).run [] =
      ({ ev with
          outcome := .ofReply ev.expression request.op (reply [request])
          phases := ev.phases ++
            (match reply [request] with
              | .ok _ => [Phase.delegate, .conversion]
              | .error _ => [.delegate]) }, [request]) := rfl
  rw [hrun]
  cases reply [request] <;> rfl

theorem record_of_error {f : Failure} (h : Statement.parse (normalize text) = .error f) :
    record reply b text = (⟨text, normalize text, .ofFailure f, [], [.parse]⟩, []) := by
  unfold record evaluate
  dsimp only
  rw [h]
  rfl

theorem record_of_ok {statement : Statement}
    (h : Statement.parse (normalize text) = .ok statement) :
    record reply b text =
      (carryOut (Delegate.recording reply) (opening text statement)
        (.ofStatement b statement)).run [] := by
  unfold record evaluate
  dsimp only
  rw [h]
  cases statement <;> rfl

theorem mem_record_iff {request : Request} :
    request ∈ (record reply b text).2 ↔
      ∃ statement, Statement.parse (normalize text) = .ok statement ∧
        Plan.ofStatement b statement = .ask request := by
  cases hs : Statement.parse (normalize text) with
  | error f =>
      rw [record_of_error reply b text hs]
      simp
  | ok statement =>
      rw [record_of_ok reply b text hs]
      cases hp : Plan.ofStatement b statement with
      | settled outcome => simp [carryOut_settled, hp]
      | ask request' => simp [carryOut_ask, hp, eq_comm]

/-- The reply is all that a delegate contributes, and only if it is asked. -/
theorem record_congr (reply' : List Request → Reply) :
    (record reply' b text).2 = (record reply b text).2 ∧
      (((record reply b text).2 ≠ [] →
          reply' (record reply b text).2 = reply (record reply b text).2) →
        (record reply' b text).1 = (record reply b text).1) := by
  cases hs : Statement.parse (normalize text) with
  | error f => simp [record_of_error _ b text hs]
  | ok statement =>
      rw [record_of_ok reply b text hs, record_of_ok reply' b text hs]
      cases Plan.ofStatement b statement with
      | settled outcome => simp [carryOut_settled]
      | ask request =>
          rw [carryOut_ask, carryOut_ask]
          refine ⟨rfl, fun h => ?_⟩
          have hr : reply' [request] = reply [request] := h (by simp)
          simp only [hr]

/-- An evaluation behind others is one whose delegate knows the requests of those. -/
theorem run_evaluate (log : List Request) :
    (evaluate (Delegate.recording reply) b text).run log =
      ((record (fun asked => reply (log ++ asked)) b text).1,
        log ++ (record (fun asked => reply (log ++ asked)) b text).2) := by
  cases hs : Statement.parse (normalize text) with
  | error f =>
      rw [record_of_error _ b text hs]
      unfold evaluate
      dsimp only
      rw [hs, List.append_nil]
      rfl
  | ok statement =>
      have hrun : (evaluate (Delegate.recording reply) b text).run log =
          (carryOut (Delegate.recording reply) (opening text statement)
            (.ofStatement b statement)).run log := by
        unfold evaluate
        dsimp only
        rw [hs]
        cases statement <;> rfl
      rw [hrun, record_of_ok _ b text hs]
      cases Plan.ofStatement b statement with
      | settled outcome =>
          rw [carryOut_settled, List.append_nil]
          rfl
      | ask request =>
          rw [carryOut_ask]
          cases hr : reply (log ++ [request]) <;>
            simp [carryOut, Delegate.recording, replyPhases, hr] <;> rfl

end Calculator
end Reckon
