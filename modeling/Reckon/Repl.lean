import Reckon.Session

/-!
The line-oriented session. A line is a command or a text to evaluate; every line is answered at
once, and nothing behind a line that leaves is read.
-/

namespace Reckon.Repl

inductive Command where
  | blank
  | leave
  | clear
  | evaluate (text : String)
deriving DecidableEq, Repr

def Command.ofLine (line : List Char) : Command :=
  match String.ofList (Text.trim line) with
  | "" => .blank
  | "exit" | "quit" => .leave
  | "clear" => .clear
  | text => .evaluate text

/-- What is written for an evaluation: its outcome, and the report of its measurements if they are
given. -/
def answerText (metrics : Option Metrics) (ev : Evaluation) : String :=
  let report := match metrics with
    | some metrics => metrics.report ++ "\n"
    | none => ""
  ev.outcome.display ++ "\n" ++ report

def clearedText : String := "Ans cleared\n"

variable {m : Type → Type} [Monad m]

/-- What evaluations are measured with. -/
structure Meter (m : Type → Type) where
  sizes : Sizes
  /-- What the last evaluation took. -/
  times : m Times

def Meter.read (meter : Meter m) (ev : Evaluation) : m Metrics :=
  ev.metrics meter.sizes <$> meter.times

/-- Answer a line: what is written for it, and the session behind it. A line that leaves has no
answer. Without a meter nothing is measured. -/
def answer (delegate : Delegate m) (meter? : Option (Meter m)) (s : Session) (line : List Char) :
    m (Option (String × Session)) :=
  match Command.ofLine line with
  | .blank => pure (some ("", s))
  | .leave => pure none
  | .clear => pure (some (clearedText, s.clear))
  | .evaluate text => do
    let (ev, s) ← s.evaluate delegate text
    match meter? with
    | none => return some (answerText none ev, s)
    | some meter => do
      let metrics ← meter.read ev
      return some (answerText (some metrics) ev, s)

/-- Answer the lines one after the other, until one leaves. -/
def answers (delegate : Delegate m) (meter? : Option (Meter m)) :
    Session → List (List Char) → m (List String)
  | _, [] => pure []
  | s, line :: lines => do
    match ← answer delegate meter? s line with
    | none => return []
    | some (text, s) => return text :: (← answers delegate meter? s lines)

/-- The lines of a text, in reverse behind those `found`; the last line is in reverse as well. -/
def splitLines (found : List (List Char)) (line : List Char) : List Char → List (List Char)
  | [] => (line.reverse :: found).reverse
  | c :: rest =>
    if c = '\n' then splitLines (line.reverse :: found) [] rest
    else splitLines found (c :: line) rest

def lines (input : String) : List (List Char) := splitLines [] [] input.toList

/-- Everything a session writes for its input. -/
def run (delegate : Delegate m) (meter? : Option (Meter m)) (input : String) : m String :=
  String.join <$> answers delegate meter? .start (lines input)

end Reckon.Repl
