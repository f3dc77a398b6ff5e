import Reckon.Calculator

/-!
A session: evaluations that hand on the previous answer. Only a number becomes the previous answer;
errors and symbolic answers leave it as it was.
-/

namespace Reckon

structure Session where
  bindings : Bindings
deriving Inhabited

namespace Session

def start : Session := ⟨.empty⟩

def answer? (s : Session) : Option Binary64 := s.bindings.answer?

def clear (_ : Session) : Session := start

/-- The session after an outcome. -/
def record (s : Session) (outcome : Outcome) : Session :=
  match outcome.number? with
  | some value => ⟨s.bindings.setAnswer value⟩
  | none => s

variable {m : Type → Type} [Monad m]

def evaluate (delegate : Delegate m) (text : String) (s : Session) : m (Evaluation × Session) := do
  let ev ← Calculator.evaluate delegate s.bindings text
  pure (ev, s.record ev.outcome)

end Session
end Reckon
