import Reckon.Latex
import Reckon.Text.Word

/-!
From loose text to expression text. Selected text arrives as prose, Unicode mathematics or LaTeX;
what stands around the expression is dropped, and symbols are spelled as the parser knows them.
-/

namespace Reckon.Normalize

/-- Whether `c` spells the small letter `p` when case does not count. The long s is an s. -/
def spells (p c : Char) : Bool := c == p || c == p.toUpper || (p == 's' && c == 'ſ')

/-- The rest behind a word, whose case does not count. -/
def afterWord? (word : List Char) (cs : List Char) : Option (List Char) :=
  match word, cs with
  | [], cs => some cs
  | _ :: _, [] => none
  | p :: word, c :: cs => if spells p c then afterWord? word cs else none

/-- The rest behind two words with blanks between them. -/
def afterWords? (first second : String) (cs : List Char) : Option (List Char) := do
  let rest ← afterWord? first.toList cs
  if (rest.head?.map Text.isBlank).getD false then
    afterWord? second.toList (Text.trimLeft rest)
  else none

/-- The words that ask for a result. -/
def promptWords : List String :=
  ["calculate", "compute", "evaluate", "solve", "simplify"]

def afterPrompt? (cs : List Char) : Option (List Char) :=
  let ends (rest : List Char) : Bool := !((rest.head?.map Text.isWordChar).getD false)
  let candidates := afterWords? "what" "is" cs ::
    promptWords.map fun word => afterWord? word.toList cs
  candidates.findSome? fun rest? => rest?.filter ends

/-- The text without a leading prompt and the blanks and colons behind it. -/
def dropPrompt (cs : List Char) : List Char :=
  match afterPrompt? cs with
  | some rest => rest.dropWhile fun c => Text.isBlank c || c == ':'
  | none => cs

/-- The text without the dollar signs around it. -/
def dropDollars (cs : List Char) : List Char :=
  Text.dropTailWhile (· == '$') (cs.dropWhile (· == '$'))

/-- The text without one equals sign at its end, and the blanks before that. -/
def dropEquals (cs : List Char) : List Char :=
  if cs.getLast? = some '=' then Text.trimRight cs.dropLast else cs

/-- Spellings of operators and names, in the order in which they are replaced. -/
def symbols : List (String × String) :=
  [("\\left(", "("),
   ("\\right)", ")"),
   ("\\cdot", "*"),
   ("\\times", "*"),
   ("\\div", "/"),
   ("\\pi", "pi"),
   ("**", "^"),
   ("×", "*"),
   ("·", "*"),
   ("÷", "/"),
   ("−", "-"),
   ("–", "-"),
   ("π", "pi"),
   ("√(", "sqrt(")]

def replaceSymbols (cs : List Char) : List Char :=
  symbols.foldl (fun cs (source, target) => Text.replaceAll (Text.literal source target) cs) cs

/-- What stands around the expression is dropped. -/
def strip (cs : List Char) : List Char :=
  let cs := dropPrompt (Text.trim (dropDollars (Text.trim cs)))
  dropEquals (Text.trimRight (Text.dropTailWhile (· == '?') (Text.trim cs)))

def normalizeChars (cs : List Char) : List Char :=
  Text.trim (Latex.expand (replaceSymbols (strip cs)))

end Reckon.Normalize

namespace Reckon

/-- The expression text that loose text stands for. -/
def normalize (text : String) : String :=
  String.ofList (Normalize.normalizeChars text.toList)

/-- Powers written with two stars, as symbolic backends do, are written with a caret. -/
def canonicalPower (text : String) : String :=
  String.ofList (Text.replaceAll (Text.literal "**" "^") text.toList)

end Reckon
