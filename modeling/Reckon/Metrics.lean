import Reckon.Binary64.Arithmetic
import Reckon.Decimal.Basic

/-!
Measurements of one evaluation: how long its phases took, how much it read, and an estimate of the
memory its trees take. Counts are 64-bit words.
-/

namespace Reckon

/-- The phases that are timed apart. -/
inductive Phase where
  | parse
  | eval
  | delegate
  | conversion
deriving DecidableEq, Repr

/-- What an evaluation took: each of its phases, and all of it, which is read from a clock of its
own. -/
structure Times where
  ofPhase : Phase → Binary64
  total : Binary64

/-- The bytes that a token and a node of a tree take. They are what the compiler makes of them. -/
structure Sizes where
  token : Nat
  node : Nat

structure Metrics where
  parseMs : Binary64
  evalMs : Binary64
  totalMs : Binary64
  peakKb : Binary64
  nodes : UInt64
  /-- The number of characters of the text. -/
  length : UInt64
  /-- Absent unless the delegate was called. -/
  delegateMs : Option Binary64
  /-- Absent unless the delegate answered. -/
  conversionMs : Option Binary64
deriving DecidableEq

namespace Metrics

/-- The measurements of an evaluation that has not begun. -/
def start (text : String) : Metrics where
  parseMs := 0
  evalMs := 0
  totalMs := 0
  peakKb := 0
  nodes := 0
  length := UInt64.ofNat text.length
  delegateMs := none
  conversionMs := none

/-- Charge a time to a phase. -/
def charge (phase : Phase) (ms : Binary64) (m : Metrics) : Metrics :=
  match phase with
  | .parse => { m with parseMs := m.parseMs + ms }
  | .eval => { m with evalMs := m.evalMs + ms }
  | .delegate => { m with delegateMs := some (m.delegateMs.getD 0 + ms) }
  | .conversion => { m with conversionMs := some (m.conversionMs.getD 0 + ms) }

/-- Count a tree; of the memory estimates the largest stays. -/
def observe (nodes bytes : UInt64) (m : Metrics) : Metrics :=
  let kb := .ofFloat bytes.toFloat / 1024
  { m with nodes := m.nodes + nodes, peakKb := if kb > m.peakKb then kb else m.peakKb }

/-- Times and sizes are reported with three places. -/
def fixedText (x : Binary64) : String :=
  let body := (Decimal.fixed 3 x.magnitude).positional
  String.ofList (if x.isNegative then '-' :: body else body)

/-- The report, one measurement a line, in a fixed order. -/
def report (m : Metrics) : String :=
  let ms (label : String) (x : Binary64) := label ++ ": " ++ fixedText x ++ " ms"
  let lines :=
    [ms "Parse time" m.parseMs,
     ms "Eval time" m.evalMs,
     ms "Total time" m.totalMs,
     "Peak memory: " ++ fixedText m.peakKb ++ " KB",
     s!"AST nodes: {m.nodes}",
     s!"Expression length: {m.length}"] ++
    (m.delegateMs.map (ms "Delegate call")).toList ++
    (m.conversionMs.map (ms "Conversion")).toList
  String.intercalate "\n" lines

end Metrics
end Reckon
