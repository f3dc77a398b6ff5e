import Reckon.Proofs.Calculator.Exchange
import Reckon.Session

/-!
Whole sessions: texts and clears in any order, from a new session on. What a history
leaves behind for the next text is one optional number, the value of its last number
since the last clear. How long a step takes is not part of a history.
-/

namespace Reckon

/-- Bindings of the previous answer, if there is one, and of nothing else. -/
def Bindings.ofAnswer? : Option Binary64 → Bindings
  | some value => withAnswer value
  | none => empty

theorem Bindings.answer?_ofAnswer? (value? : Option Binary64) :
    (ofAnswer? value?).answer? = value? := by
  cases value? <;> rfl

theorem Bindings.setAnswer_ofAnswer? (value? : Option Binary64) (value : Binary64) :
    (ofAnswer? value?).setAnswer value = ofAnswer? (some value) := by
  cases value? with
  | none => rfl
  | some old => simp [ofAnswer?, withAnswer, setAnswer, set, empty]

theorem Bindings.eq_answerName_of_ofAnswer? {value? : Option Binary64} {name : String}
    (h : ((ofAnswer? value?).get? name).isSome) : name = answerName := by
  cases value? with
  | none => cases h
  | some value =>
      refine Decidable.byContradiction fun hne => ?_
      rw [ofAnswer?, withAnswer, setAnswer, get?_set, if_neg (Ne.symm hne)] at h
      cases h

theorem Outcome.number?_eq_some {outcome : Outcome} {value : Binary64} :
    outcome.number? = some value ↔ outcome = .number value := by
  cases outcome <;> simp [number?]

namespace Session

/-- What can be done with a session. -/
inductive Step where
  | evaluate (text : String)
  | clear

/-- What a step comes to. -/
inductive Event where
  | evaluated (ev : Evaluation)
  | cleared

/-- No number and no clear: an error, something not implemented, or a symbolic answer. -/
def Event.KeepsAnswer : Event → Prop
  | .evaluated ev => ev.outcome.number? = none
  | .cleared => False

/-- The value is that of the last number, and nothing has been cleared since. -/
def LastNumber (events : List Event) (value : Binary64) : Prop :=
  ∃ before ev after, events = before ++ .evaluated ev :: after ∧
    ev.outcome = .number value ∧ ∀ event ∈ after, event.KeepsAnswer

section Run

variable {m : Type → Type} [Monad m] (delegate : Delegate m)

def step : Step → Session → m (Event × Session)
  | .evaluate text, s => do
    let (ev, s) ← s.evaluate delegate text
    pure (.evaluated ev, s)
  | .clear, s => pure (.cleared, s.clear)

/-- The steps one after the other, with what each comes to. -/
def run : List Step → Session → m (List Event × Session)
  | [], s => pure ([], s)
  | first :: rest, s => do
    let (event, s) ← step delegate first s
    let (events, s) ← run rest s
    pure (event :: events, s)

end Run

/-- What a session has gone through, what it is now, and the requests it has sent. -/
structure History where
  events : List Event
  session : Session
  sent : List Request

/-- The history of a new session whose delegate knows all requests so far. -/
def history (reply : List Request → Reply) (steps : List Step) : History :=
  let ((events, session), sent) := (run (Delegate.recording reply) steps .start).run []
  ⟨events, session, sent⟩

namespace History

variable (reply : List Request → Reply)

/-- The history after one more step. -/
def next (h : History) (taken : Step) : History :=
  let ((event, session), sent) := (step (Delegate.recording reply) taken h.session).run h.sent
  ⟨h.events ++ [event], session, sent⟩

/-- A history is built up step by step. -/
theorem foldl_next (steps : List Step) (h : History) :
    steps.foldl (next reply) h =
      let ((events, session), sent) :=
        (run (Delegate.recording reply) steps h.session).run h.sent
      ⟨h.events ++ events, session, sent⟩ := by
  induction steps generalizing h with
  | nil =>
      have hrun : (run (Delegate.recording reply) [] h.session).run h.sent =
          (([], h.session), h.sent) := rfl
      simp [hrun]
  | cons first rest ih =>
      have hrun : (run (Delegate.recording reply) (first :: rest) h.session).run h.sent =
          let ((event, session), sent) :=
            (step (Delegate.recording reply) first h.session).run h.sent
          let ((events, session), sent) :=
            (run (Delegate.recording reply) rest session).run sent
          ((event :: events, session), sent) := rfl
      rw [List.foldl_cons, ih, hrun, next]
      obtain ⟨⟨event, session⟩, sent⟩ :=
        (step (Delegate.recording reply) first h.session).run h.sent
      dsimp only
      obtain ⟨⟨events, session⟩, sent⟩ := (run (Delegate.recording reply) rest session).run sent
      simp

theorem next_evaluate (h : History) (text : String) :
    h.next reply (.evaluate text) =
      let now := Calculator.record (fun asked => reply (h.sent ++ asked)) h.session.bindings text
      ⟨h.events ++ [.evaluated now.1], h.session.record now.1.outcome, h.sent ++ now.2⟩ := by
  have hstep : (step (Delegate.recording reply) (.evaluate text) h.session).run h.sent =
      let (ev, sent) := (Calculator.evaluate (Delegate.recording reply)
        h.session.bindings text).run h.sent
      ((.evaluated ev, h.session.record ev.outcome), sent) := rfl
  rw [next, hstep, Calculator.run_evaluate]

theorem next_clear (h : History) :
    h.next reply .clear = ⟨h.events ++ [.cleared], start, h.sent⟩ := rfl

/-- The same bindings make the same request, and give the same result for one reply. -/
theorem next_congr {reply reply' : List Request → Reply} {h h' : History}
    (hb : h'.session.bindings = h.session.bindings) (text : String) :
    let after := h.next reply (.evaluate text)
    let after' := h'.next reply' (.evaluate text)
    after'.sent.drop h'.sent.length = after.sent.drop h.sent.length ∧
      ((after.sent ≠ h.sent → reply' after'.sent = reply after.sent) →
        after'.events.getLast? = after.events.getLast?) := by
  obtain ⟨hsent, hev⟩ := Calculator.record_congr
    (fun asked => reply (h.sent ++ asked)) h.session.bindings text
    fun asked => reply' (h'.sent ++ asked)
  simp only [next_evaluate, hb, List.drop_left, List.getLast?_concat, hsent]
  refine ⟨trivial, fun hr => ?_⟩
  rw [hev]
  intro hne
  exact hr fun heq => hne (List.append_right_eq_self.1 heq)

theorem length_events_next (h : History) (taken : Step) :
    (h.next reply taken).events.length = h.events.length + 1 := by
  rw [next]
  exact List.length_append

theorem events_foldl_next (steps : List Step) (h : History) :
    h.events <+: (steps.foldl (next reply) h).events := by
  rw [foldl_next]
  exact List.prefix_append _ _

end History

/-- The last event either is the last number itself or leaves the one before it. -/
theorem lastNumber_concat {events : List Event} {event : Event} {value : Binary64} :
    LastNumber (events ++ [event]) value ↔
      (∃ ev, event = .evaluated ev ∧ ev.outcome = .number value) ∨
        event.KeepsAnswer ∧ LastNumber events value := by
  constructor
  · rintro ⟨before, ev, after, he, ho, hk⟩
    obtain rfl | ⟨after, last, rfl⟩ := List.eq_nil_or_concat after
    · obtain ⟨-, hev⟩ := List.append_inj' he rfl
      cases hev
      exact .inl ⟨ev, rfl, ho⟩
    · rw [List.concat_eq_append, ← List.cons_append, ← List.append_assoc] at he
      obtain ⟨rfl, hlast⟩ := List.append_inj' he rfl
      cases hlast
      exact .inr ⟨hk _ (by simp), before, ev, after, rfl, ho, fun e hm => hk e (by simp [hm])⟩
  · rintro (⟨ev, rfl, ho⟩ | ⟨hk, before, ev, after, rfl, ho, hks⟩)
    · exact ⟨events, ev, [], rfl, ho, by simp⟩
    · refine ⟨before, ev, after ++ [event], by simp, ho, fun e hm => ?_⟩
      obtain hm | hm := List.mem_append.1 hm
      · exact hks e hm
      · exact List.mem_singleton.1 hm ▸ hk

theorem lastNumber_concat_of_keeps {events : List Event} {event : Event} {value : Binary64}
    (hk : event.KeepsAnswer) : LastNumber (events ++ [event]) value ↔ LastNumber events value := by
  rw [lastNumber_concat, and_iff_right hk]
  refine or_iff_right ?_
  rintro ⟨ev, rfl, ho⟩
  rw [Event.KeepsAnswer, ho] at hk
  cases hk

theorem lastNumber_append {events more : List Event} {value : Binary64}
    (hk : ∀ event ∈ more, event.KeepsAnswer) :
    LastNumber (events ++ more) value ↔ LastNumber events value := by
  induction more generalizing events with
  | nil => rw [List.append_nil]
  | cons event more ih =>
      obtain ⟨he, hm⟩ := List.forall_mem_cons.1 hk
      rw [List.append_cons, ih hm, lastNumber_concat_of_keeps he]

/-- Nothing but the last number is left of the events of a history. -/
structure Tracks (h : History) : Prop where
  bindings : h.session.bindings = .ofAnswer? h.session.answer?
  answer : ∀ value, h.session.answer? = some value ↔ LastNumber h.events value

theorem tracks_start : Tracks ⟨[], start, []⟩ := by
  refine ⟨rfl, fun value => iff_of_false (fun h => nomatch h) ?_⟩
  rintro ⟨before, ev, after, he, -⟩
  simp at he

theorem record_of_number {s : Session} {outcome : Outcome} {value : Binary64}
    (h : outcome = .number value) : s.record outcome = ⟨s.bindings.setAnswer value⟩ := by
  rw [h]
  rfl

theorem record_of_no_number {s : Session} {outcome : Outcome} (h : outcome.number? = none) :
    s.record outcome = s := by
  simp [record, h]

theorem Tracks.next {h : History} (ht : Tracks h) (reply : List Request → Reply) (taken : Step) :
    Tracks (h.next reply taken) := by
  cases taken with
  | clear =>
      rw [History.next_clear]
      refine ⟨rfl, fun value => ?_⟩
      rw [lastNumber_concat]
      refine iff_of_false (fun h => nomatch h) ?_
      rintro (⟨ev, hev, -⟩ | ⟨hk, -⟩)
      · cases hev
      · exact hk
  | evaluate text =>
      rw [History.next_evaluate]
      dsimp only
      generalize (Calculator.record (fun asked => reply (h.sent ++ asked))
        h.session.bindings text) = now
      cases hn : now.1.outcome.number? with
      | some new =>
          have ho := Outcome.number?_eq_some.1 hn
          rw [record_of_number ho, ht.bindings, Bindings.setAnswer_ofAnswer?]
          refine ⟨rfl, fun value => ?_⟩
          rw [lastNumber_concat, Session.answer?, Bindings.answer?_ofAnswer?]
          simp [Event.KeepsAnswer, ho, Outcome.number?]
      | none =>
          rw [record_of_no_number hn]
          have hk : (Event.evaluated now.1).KeepsAnswer := hn
          exact ⟨ht.bindings, fun value => (ht.answer value).trans
            (lastNumber_concat_of_keeps hk).symm⟩

theorem Tracks.foldl {h : History} (ht : Tracks h) (reply : List Request → Reply)
    (steps : List Step) : Tracks (steps.foldl (History.next reply) h) := by
  induction steps generalizing h with
  | nil => exact ht
  | cons first rest ih => exact ih (ht.next reply first)

section History

variable (reply : List Request → Reply) (steps : List Step)

theorem history_eq_foldl :
    history reply steps = steps.foldl (History.next reply) ⟨[], start, []⟩ := by
  rw [History.foldl_next, history]
  simp

theorem history_append (later : List Step) :
    history reply (steps ++ later) = later.foldl (History.next reply) (history reply steps) := by
  rw [history_eq_foldl, history_eq_foldl, List.foldl_append]

theorem history_concat (taken : Step) :
    history reply (steps ++ [taken]) = (history reply steps).next reply taken :=
  history_append reply steps [taken]

theorem tracks_history : Tracks (history reply steps) := by
  rw [history_eq_foldl]
  exact tracks_start.foldl reply steps

theorem length_events_history : (history reply steps).events.length = steps.length := by
  have h (later : List Step) (h : History) :
      (later.foldl (History.next reply) h).events.length = h.events.length + later.length := by
    induction later generalizing h with
    | nil => rfl
    | cons first rest ih =>
        rw [List.foldl_cons, ih, History.length_events_next, List.length_cons]
        omega
  rw [history_eq_foldl, h]
  simp

/-- The event of a step, whatever is done afterwards. -/
theorem events_history_getElem? (taken : Step) (rest : List Step) :
    (history reply (steps ++ taken :: rest)).events[steps.length]? =
      ((history reply steps).next reply taken).events[steps.length]? := by
  have hp : ((history reply steps).next reply taken).events <+:
      (history reply (steps ++ taken :: rest)).events := by
    rw [history_append]
    exact History.events_foldl_next reply rest _
  obtain ⟨more, hmore⟩ := hp
  rw [← hmore, List.getElem?_append_left]
  rw [History.length_events_next, length_events_history]
  exact Nat.lt_succ_self _

theorem getElem?_events_evaluate (text : String) (rest : List Step) :
    (history reply (steps ++ .evaluate text :: rest)).events[steps.length]? =
      some (.evaluated (Calculator.record
        (fun asked => reply ((history reply steps).sent ++ asked))
        (history reply steps).session.bindings text).1) := by
  rw [events_history_getElem?, History.next_evaluate, ← length_events_history reply steps]
  exact List.getElem?_concat_length

/-- Events that keep the answer keep it however many they are. -/
theorem answer?_of_keeps {h : History} (ht : Tracks h) {later : List Step}
    (hk : ∀ event ∈ (later.foldl (History.next reply) h).events.drop h.events.length,
      event.KeepsAnswer) :
    (later.foldl (History.next reply) h).session.answer? = h.session.answer? := by
  obtain ⟨more, hmore⟩ := History.events_foldl_next reply later h
  have htl := ht.foldl reply later
  rw [← hmore, List.drop_left] at hk
  refine Option.ext fun value => ?_
  rw [htl.answer, ht.answer, ← hmore, lastNumber_append hk]

/-- The bindings of a session never bind more than the previous answer, which is the
last number since the last clear; each text is evaluated with that answer and nothing
else; what is no number leaves it alone; and histories with the same answer put the
same request for the next text, with the same result if the reply to it is the same. -/
theorem history_determined_by_answer (reply : List Request → Reply) (steps : List Step) :
    let past := history reply steps
    (∀ name, (past.session.bindings.get? name).isSome → name = answerName) ∧
    (∀ value, past.session.answer? = some value ↔ LastNumber past.events value) ∧
    (∀ text,
      let now := Calculator.record (fun asked => reply (past.sent ++ asked))
        (.ofAnswer? past.session.answer?) text
      (history reply (steps ++ [.evaluate text])).sent = past.sent ++ now.2 ∧
      ∀ rest, (history reply (steps ++ .evaluate text :: rest)).events[steps.length]? =
        some (.evaluated now.1)) ∧
    (∀ rest, (history reply (steps ++ .clear :: rest)).events[steps.length]? = some .cleared) ∧
    (∀ later, (∀ event ∈ (history reply (steps ++ later)).events.drop steps.length,
        event.KeepsAnswer) →
      (history reply (steps ++ later)).session.answer? = past.session.answer?) ∧
    ∀ reply' steps', (history reply' steps').session.answer? = past.session.answer? →
      ∀ text,
        let next := history reply (steps ++ [.evaluate text])
        let next' := history reply' (steps' ++ [.evaluate text])
        next'.sent.drop (history reply' steps').sent.length =
          next.sent.drop past.sent.length ∧
        ((next.sent ≠ past.sent → reply' next'.sent = reply next.sent) →
          next'.events.getLast? = next.events.getLast?) := by
  intro past
  have ht : Tracks past := tracks_history reply steps
  refine ⟨fun name h => ?_, ht.answer, fun text => ⟨?_, fun rest => ?_⟩, fun rest => ?_,
    fun later h => ?_, fun reply' steps' h text => ?_⟩
  · rw [ht.bindings] at h
    exact Bindings.eq_answerName_of_ofAnswer? h
  · rw [history_concat, History.next_evaluate, ← ht.bindings]
  · rw [getElem?_events_evaluate, ← ht.bindings]
  · rw [events_history_getElem?, History.next_clear, ← length_events_history reply steps]
    exact List.getElem?_concat_length
  · rw [history_append] at h ⊢
    rw [← length_events_history reply steps] at h
    exact answer?_of_keeps reply ht h
  · have hb : (history reply' steps').session.bindings = past.session.bindings := by
      rw [ht.bindings, (tracks_history reply' steps').bindings, h]
    rw [history_concat, history_concat]
    exact History.next_congr hb text

example : (history (fun _ => .error .timeout)
    [.evaluate "7", .clear, .evaluate "42", .evaluate "1/0", .evaluate "x = 1"]).session.answer? =
      some ⟨0x4045000000000000⟩ := by
  decide +kernel

end History
end Session
end Reckon
