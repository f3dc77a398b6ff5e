import Reckon.Text.Blank
import Reckon.Text.Replace

/-!
Fractions and roots in LaTeX notation. A group is expanded once it holds no braces itself, so each
pass takes the innermost groups, and a bounded number of passes works outwards.
-/

namespace Reckon.Latex

def openBrace : Char := '\x7b'

def closeBrace : Char := '\x7d'

/-- How deep fractions and roots may be nested. -/
def maxPasses : Nat := 16

/-- The body of a group without inner braces, behind any blanks, with the number of characters up
to its end. -/
def group? (cs : List Char) : Option (List Char × Nat) :=
  let blanks := (cs.takeWhile Text.isBlank).length
  match cs.drop blanks with
  | [] => none
  | c :: rest =>
    let body := rest.takeWhile fun d => d != openBrace && d != closeBrace
    if c = openBrace ∧ (rest.drop body.length).head? = some closeBrace then
      some (body, blanks + body.length + 2)
    else none

/-- `\frac{a}{b}` becomes `(a)/(b)`. -/
def fraction : Text.Rule := fun cs =>
  let name := "\\frac".toList
  if name.isPrefixOf cs then do
    let (above, n) ← group? (cs.drop name.length)
    let (below, m) ← group? (cs.drop (name.length + n))
    return ("(".toList ++ above ++ ")/(".toList ++ below ++ ")".toList, name.length + n + m)
  else none

/-- `\sqrt{a}` becomes `sqrt(a)`. -/
def root : Text.Rule := fun cs =>
  let name := "\\sqrt".toList
  if name.isPrefixOf cs then do
    let (body, n) ← group? (cs.drop name.length)
    return ("sqrt(".toList ++ body ++ ")".toList, name.length + n)
  else none

def pass (cs : List Char) : List Char := Text.replaceAll root (Text.replaceAll fraction cs)

/-- Passes until nothing changes, at most `bound` of them. -/
def passes : Nat → List Char → List Char
  | 0, cs => cs
  | bound + 1, cs =>
    let next := pass cs
    if next = cs then cs else passes bound next

theorem passes_of_fixed {cs : List Char} (h : pass cs = cs) (bound : Nat) :
    passes bound cs = cs := by
  cases bound with
  | zero => rfl
  | succ bound => simp only [passes, h, if_true]

/-- Stopping early changes nothing. -/
theorem passes_succ (bound : Nat) (cs : List Char) :
    passes (bound + 1) cs = passes bound (pass cs) := by
  simp only [passes]
  split
  · rename_i hfixed
    rw [hfixed, passes_of_fixed hfixed]
  · rfl

def expand (cs : List Char) : List Char := passes maxPasses cs

end Reckon.Latex
