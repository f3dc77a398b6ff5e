import Mathlib.Data.List.Induction
import Reckon.Proofs.Session.History
import Reckon.Repl

/-!
What a line-oriented session writes, as the transcript of its steps: the lines up to the first that
leaves are steps of a session, each text is evaluated with the last number since the last clear, and
the output is one entry after the other. So the output on a longer input is put together from those
on its parts. This holds in every monad, for every delegate and with any meter or none.
-/

namespace Reckon

namespace Session

def Event.isCleared : Event → Bool
  | .evaluated _ => false
  | .cleared => true

def Event.number? : Event → Option Binary64
  | .evaluated ev => ev.outcome.number?
  | .cleared => none

/-- The last number since the last clear. -/
def lastNumber? (events : List Event) : Option Binary64 :=
  (events.reverse.takeWhile (!·.isCleared)).findSome? Event.number?

section LastNumber

variable {events : List Event}

theorem lastNumber?_cleared : lastNumber? (events ++ [.cleared]) = none := by
  simp [lastNumber?, Event.isCleared]

theorem lastNumber?_evaluated (ev : Evaluation) :
    lastNumber? (events ++ [.evaluated ev]) = ev.outcome.number?.or (lastNumber? events) := by
  simp only [lastNumber?, List.reverse_concat, List.takeWhile_cons, Event.isCleared,
    Bool.not_false, if_true, List.findSome?_cons, Event.number?]
  cases ev.outcome.number? <;> rfl

/-- A session that binds the last number of its past does so after the next evaluation, too. -/
theorem record_ofAnswer?_lastNumber? (ev : Evaluation) :
    record ⟨.ofAnswer? (lastNumber? events)⟩ ev.outcome =
      ⟨.ofAnswer? (lastNumber? (events ++ [.evaluated ev]))⟩ := by
  rw [lastNumber?_evaluated]
  cases hn : ev.outcome.number? with
  | some value =>
      rw [record_of_number (Outcome.number?_eq_some.1 hn), Bindings.setAnswer_ofAnswer?]
      rfl
  | none => exact record_of_no_number hn

end LastNumber

end Session

namespace Repl

open Session (lastNumber?)

/-- The text of a line, without the blanks around it. -/
def trimmed (line : List Char) : String := String.ofList (Text.trim line)

def Leaves (line : List Char) : Prop := trimmed line = "exit" ∨ trimmed line = "quit"

instance : DecidablePred Leaves := fun _ => inferInstanceAs (Decidable (_ ∨ _))

/-- What a line that does not leave asks for; nothing if it is blank. -/
def step? (line : List Char) : Option Session.Step :=
  if trimmed line = "" then none
  else if trimmed line = "clear" then some .clear
  else some (.evaluate (trimmed line))

/-- What the lines before the first that leaves ask for. -/
def steps (lines : List (List Char)) : List Session.Step :=
  (lines.takeWhile fun line => ¬Leaves line).filterMap step?

/-- An event of a session, with its measurements if it is measured. -/
inductive Entry where
  | evaluated (ev : Evaluation) (metrics : Option Metrics)
  | cleared

namespace Entry

def event : Entry → Session.Event
  | evaluated ev _ => .evaluated ev
  | cleared => .cleared

/-- A line with the outcome, and the report of the measurements with a line end. -/
def text : Entry → String
  | evaluated ev none => ev.outcome.display ++ "\n"
  | evaluated ev (some metrics) => ev.outcome.display ++ "\n" ++ (metrics.report ++ "\n")
  | cleared => "Ans cleared\n"

end Entry

def written (entries : List Entry) : String := String.join (entries.map Entry.text)

def events (entries : List Entry) : List Session.Event := entries.map Entry.event

theorem written_cons (entry : Entry) (entries : List Entry) :
    written (entry :: entries) = entry.text ++ written entries := by
  simp [written]

theorem written_append (entries entries' : List Entry) :
    written (entries ++ entries') = written entries ++ written entries' := by
  simp [written, String.join_append]

section Run

variable {m : Type → Type} [Monad m] (delegate : Delegate m) (meter? : Option (Meter m))

def measured (ev : Evaluation) : Option (Meter m) → m (Option Metrics)
  | none => pure none
  | some meter => some <$> meter.read ev

/-- The entries for steps that follow the events of the past. Each text is evaluated with the last
number of all events before it, whether they are of the past or not. -/
def transcript : List Session.Event → List Session.Step → m (List Entry)
  | _, [] => pure []
  | past, .clear :: rest => do
    let later ← transcript (past ++ [.cleared]) rest
    return .cleared :: later
  | past, .evaluate text :: rest => do
    let ev ← Calculator.evaluate delegate (.ofAnswer? (lastNumber? past)) text
    let metrics ← measured ev meter?
    let later ← transcript (past ++ [.evaluated ev]) rest
    return .evaluated ev metrics :: later

/-- The output on an input, in a session that starts with an answer. -/
def runFrom (value? : Option Binary64) (input : String) : m String :=
  String.join <$> answers delegate meter? ⟨.ofAnswer? value?⟩ (lines input)

end Run

section Lines

variable {line : List Char}

theorem lines_eq_splitOn (input : String) : lines input = input.toList.splitOn '\n' := by
  have hsplit (found : List (List Char)) (line cs : List Char) :
      splitLines found line cs = found.reverse ++ List.splitOnPPrepend (· == '\n') cs line := by
    induction cs generalizing found line with
    | nil => simp [splitLines, List.splitOnPPrepend]
    | cons c cs ih =>
        rw [splitLines, List.splitOnPPrepend_cons_eq_if, ih, ih]
        by_cases h : c = '\n' <;> simp [h]
  exact hsplit [] [] _

theorem splitOn_append_newline (cs rest : List Char) :
    (cs ++ '\n' :: rest).splitOn '\n' = cs.splitOn '\n' ++ rest.splitOn '\n' :=
  List.splitOnP_append_cons cs rest rfl

/-- An input that is empty or ends with a line end has no part of a line at its end. -/
theorem exists_splitOn_append {before : String}
    (h : before = "" ∨ before.toList.getLast? = some '\n') :
    ∃ first : List (List Char), before.toList.splitOn '\n' = first ++ [[]] ∧
      ∀ after : String,
        (before ++ after).toList.splitOn '\n' = first ++ after.toList.splitOn '\n' := by
  obtain rfl | h := h
  · exact ⟨[], rfl, fun after => by rw [String.empty_append]; rfl⟩
  · obtain ⟨init, hinit⟩ := List.getLast?_eq_some_iff.1 h
    refine ⟨init.splitOn '\n', ?_, fun after => ?_⟩
    · rw [hinit, splitOn_append_newline]
      rfl
    · rw [String.toList_append, hinit, List.append_assoc, List.singleton_append,
        splitOn_append_newline]

theorem ofLine_of_leaves (h : Leaves line) : Command.ofLine line = .leave := by
  obtain h | h := h <;> (rw [trimmed] at h; simp [Command.ofLine, h])

theorem ofLine_of_not_leaves (h : ¬Leaves line) :
    Command.ofLine line = match step? line with
      | none => .blank
      | some .clear => .clear
      | some (.evaluate text) => .evaluate text := by
  rw [Leaves, trimmed, not_or] at h
  rw [Command.ofLine, step?, trimmed]
  split <;> simp_all

theorem steps_of_leaves (h : Leaves line) (rest : List (List Char)) :
    steps (line :: rest) = [] := by
  simp [steps, h]

theorem steps_of_not_leaves (h : ¬Leaves line) (rest : List (List Char)) :
    steps (line :: rest) = (step? line).toList ++ steps rest := by
  rw [steps, List.takeWhile_cons_of_pos (by simpa using h), List.filterMap_cons]
  cases step? line <;> rfl

theorem steps_append_of_eq_nil {rest : List (List Char)} (h : steps rest = [])
    (first : List (List Char)) : steps (first ++ rest) = steps first := by
  induction first with
  | nil => exact h
  | cons line first ih =>
      rw [List.cons_append]
      by_cases hleaves : Leaves line
      · rw [steps_of_leaves hleaves, steps_of_leaves hleaves]
      · rw [steps_of_not_leaves hleaves, steps_of_not_leaves hleaves, ih]

theorem steps_append {first : List (List Char)} (h : ∀ line ∈ first, ¬Leaves line)
    (rest : List (List Char)) : steps (first ++ rest) = steps first ++ steps rest := by
  induction first with
  | nil => rfl
  | cons line first ih =>
      obtain ⟨hline, hfirst⟩ := List.forall_mem_cons.1 h
      rw [List.cons_append, steps_of_not_leaves hline, steps_of_not_leaves hline, ih hfirst,
        List.append_assoc]

theorem steps_blank : steps [[]] = [] := by decide

end Lines

section Laws

variable {m : Type → Type} [Monad m] [LawfulMonad m] (delegate : Delegate m)
  (meter? : Option (Meter m))

theorem answer_of_not_leaves {line : List Char} (h : ¬Leaves line) (s : Session) :
    answer delegate meter? s line = match step? line with
      | none => pure (some ("", s))
      | some .clear => pure (some (Entry.cleared.text, s.clear))
      | some (.evaluate text) => do
        let ev ← Calculator.evaluate delegate s.bindings text
        let metrics ← measured ev meter?
        return some ((Entry.evaluated ev metrics).text, s.record ev.outcome) := by
  rw [answer, ofLine_of_not_leaves h]
  cases step? line with
  | none => rfl
  | some taken =>
      cases taken with
      | clear => rfl
      | evaluate text =>
          cases meter? with
          | none => simp [Session.evaluate, measured, answerText, Entry.text]
          | some meter => simp [Session.evaluate, measured, answerText, Entry.text]

theorem join_answers (past : List Session.Event) (lines : List (List Char)) :
    String.join <$> answers delegate meter? ⟨.ofAnswer? (lastNumber? past)⟩ lines =
      written <$> transcript delegate meter? past (steps lines) := by
  induction lines generalizing past with
  | nil => simp [answers, steps, transcript, written]
  | cons line lines ih =>
      by_cases hleaves : Leaves line
      · simp [answers, answer, ofLine_of_leaves hleaves, steps_of_leaves hleaves, transcript,
          written]
      rw [answers, answer_of_not_leaves delegate meter? hleaves, steps_of_not_leaves hleaves]
      -- behind every line, the session binds the last number of the events so far
      have hrest (first : String) (now : List Session.Event) :
          (fun texts => first ++ String.join texts) <$>
            answers delegate meter? ⟨.ofAnswer? (lastNumber? now)⟩ lines =
          (fun later => first ++ written later) <$>
            transcript delegate meter? now (steps lines) := by
        simpa using congrArg (fun output => (first ++ ·) <$> output) (ih now)
      cases step? line with
      | none => simpa using ih past
      | some taken =>
          cases taken with
          | clear =>
              have hclear : Session.clear ⟨.ofAnswer? (lastNumber? past)⟩ =
                  ⟨.ofAnswer? (lastNumber? (past ++ [.cleared]))⟩ := by
                rw [Session.lastNumber?_cleared]
                rfl
              simp [transcript, written_cons, hclear, hrest]
          | evaluate text =>
              simp [transcript, written_cons, Session.record_ofAnswer?_lastNumber?, hrest]

theorem transcript_append (past : List Session.Event) (first later : List Session.Step) :
    transcript delegate meter? past (first ++ later) = (do
      let entries ← transcript delegate meter? past first
      let more ← transcript delegate meter? (past ++ events entries) later
      return entries ++ more) := by
  induction first generalizing past with
  | nil => simp [transcript, events]
  | cons taken first ih =>
      cases taken with
      | clear => simp [transcript, events, Entry.event, ih]
      | evaluate text => simp [transcript, events, Entry.event, ih]

/-- The output of a session that starts with the last number of its past. -/
theorem runFrom_lastNumber? (past : List Session.Event) (input : String) :
    runFrom delegate meter? (lastNumber? past) input =
      written <$> transcript delegate meter? past (steps (input.toList.splitOn '\n')) := by
  rw [← lines_eq_splitOn]
  exact join_answers delegate meter? past (lines input)

/-- The output on an input is the entries for its lines, one after the other, up to the first that
leaves: nothing for a blank line, a note for a clear, and otherwise the outcome of the text of the
line, evaluated with the last number since the last clear, with the report of its measurements if
there is a meter. What stands behind a line that leaves has no effect. If the first part of an
input ends with a line end and none of its lines leaves, the output on it is followed by the output
on the second part, in a session that starts with the answer which the first part comes to. -/
theorem run_refines_session :
    (∀ input, run delegate meter? input =
      written <$> transcript delegate meter? [] (steps (input.toList.splitOn '\n'))) ∧
    (∀ before line after : String, (before = "" ∨ before.toList.getLast? = some '\n') →
      '\n' ∉ line.toList → Leaves line.toList →
      run delegate meter? (before ++ (line ++ "\n" ++ after)) = run delegate meter? before) ∧
    ∀ before after : String, before.toList.getLast? = some '\n' →
      (∀ line ∈ before.toList.splitOn '\n', ¬Leaves line) →
      run delegate meter? (before ++ after) = (do
        let entries ← transcript delegate meter? [] (steps (before.toList.splitOn '\n'))
        let more ← runFrom delegate meter? (lastNumber? (events entries)) after
        return written entries ++ more) := by
  have hrun (input : String) : run delegate meter? input =
      written <$> transcript delegate meter? [] (steps (input.toList.splitOn '\n')) :=
    runFrom_lastNumber? delegate meter? [] input
  refine ⟨hrun, fun before line after hbefore hline hleaves => ?_,
    fun before after hend hstays => ?_⟩
  · obtain ⟨first, hfirst, happend⟩ := exists_splitOn_append hbefore
    have hlines : (line ++ "\n" ++ after).toList.splitOn '\n' =
        line.toList :: after.toList.splitOn '\n' := by
      rw [String.toList_append, String.toList_append, List.append_assoc]
      refine List.splitOnP_append_cons_of_forall_mem (fun c hc => ?_) _ rfl _
      exact beq_false_of_ne fun h => hline (h ▸ hc)
    rw [hrun, hrun, happend, hlines, hfirst,
      steps_append_of_eq_nil (steps_of_leaves hleaves _), steps_append_of_eq_nil steps_blank]
  · obtain ⟨first, hfirst, happend⟩ := exists_splitOn_append (.inr hend)
    rw [hfirst] at hstays ⊢
    rw [hrun, happend, steps_append_of_eq_nil steps_blank,
      steps_append fun line hline => hstays line (List.mem_append_left _ hline), transcript_append]
    simp [written_append, runFrom_lastNumber?]

end Laws

theorem run_refines_session_cleared :
    let meter : Meter Id := ⟨⟨40, 56⟩, pure ⟨fun _ => 0, 1⟩⟩
    (run (unavailable : Delegate Id) none ("6\nclear\n7\n" ++ "Ans*6\n")).run =
        "6\nAns cleared\n7\n" ++
          (runFrom (unavailable : Delegate Id) none (some 7) "Ans*6\n").run ∧
      run (unavailable : Delegate Id) none ("6\nclear\n7\n" ++ (" quit " ++ "\n" ++ "Ans*6\n")) =
        run (unavailable : Delegate Id) none "6\nclear\n7\n" ∧
      ∃ ev, Calculator.evaluate (unavailable : Delegate Id) .empty "7" = pure ev ∧
        (run (unavailable : Delegate Id) (some meter) ("7\n" ++ "Ans*6\n")).run =
          "7\n" ++ ((ev.metrics meter.sizes ⟨fun _ => 0, 1⟩).report ++ "\n") ++
            (runFrom (unavailable : Delegate Id) (some meter) (some 7) "Ans*6\n").run := by
  intro meter
  obtain ⟨-, hleave, happend⟩ := run_refines_session (unavailable : Delegate Id) none
  obtain ⟨-, -, hmeasured⟩ := run_refines_session (unavailable : Delegate Id) (some meter)
  have hend : "6\nclear\n7\n".toList.getLast? = some '\n' := by decide
  have hstays : ∀ line ∈ "6\nclear\n7\n".toList.splitOn '\n', ¬Leaves line := by decide
  have htexts : (transcript (unavailable : Delegate Id) none []
      (steps ("6\nclear\n7\n".toList.splitOn '\n'))).run.map Entry.text =
        ["6\n", "Ans cleared\n", "7\n"] := by
    decide +kernel
  have hlast : lastNumber? (events (transcript (unavailable : Delegate Id) none []
      (steps ("6\nclear\n7\n".toList.splitOn '\n'))).run) = some 7 := by
    decide +kernel
  obtain ⟨ev, hev⟩ : ∃ ev,
      Calculator.evaluate (unavailable : Delegate Id) .empty "7" = pure ev :=
    ⟨_, (Id.pure_run _).symm⟩
  have hseven : ev.outcome.display = "7" ∧ ev.outcome.number? = some 7 := by
    have h : (Calculator.evaluate (unavailable : Delegate Id) .empty "7").run.outcome.display =
        "7" ∧ (Calculator.evaluate (unavailable : Delegate Id) .empty "7").run.outcome.number? =
          some 7 := by
      decide +kernel
    rwa [hev] at h
  have hentries : transcript (unavailable : Delegate Id) (some meter) []
      (steps ("7\n".toList.splitOn '\n')) =
        pure [.evaluated ev (some (ev.metrics meter.sizes ⟨fun _ => 0, 1⟩))] := by
    have hsteps : steps ("7\n".toList.splitOn '\n') = [.evaluate "7"] := by rfl
    have hstart : Bindings.ofAnswer? (lastNumber? []) = .empty := by rfl
    rw [hsteps, transcript, hstart, hev]
    rfl
  refine ⟨(congrArg Id.run (happend "6\nclear\n7\n" "Ans*6\n" hend hstays)).trans ?_,
    hleave "6\nclear\n7\n" " quit " "Ans*6\n" (.inr hend) (by decide) (by decide),
    ev, hev, (congrArg Id.run (hmeasured "7\n" "Ans*6\n" (by decide) (by decide))).trans ?_⟩
  · simp only [Id.run_bind, Id.run_pure, hlast, written, htexts]
    rfl
  · have hnumber : lastNumber? ([] ++ [.evaluated ev]) = some 7 := by
      rw [Session.lastNumber?_evaluated, hseven.2]
      rfl
    rw [List.nil_append] at hnumber
    simp only [hentries, Id.run_bind, Id.run_pure, events, written, List.map_cons, List.map_nil,
      Entry.event, Entry.text, hnumber, hseven.1]
    rfl

end Repl
end Reckon
