/-!
Replacing parts of a text. A rule looks at what is left of the text and says what to write for how
many of its first characters, if it applies there. Matches are taken from left to right and do not
overlap.
-/

namespace Reckon.Text

/-- What to write instead, and for how many characters. -/
abbrev Rule := List Char → Option (List Char × Nat)

/-- Apply a rule everywhere. The first `passed` characters belong to the last match, and `written`
holds the text so far in reverse. -/
def replaceFrom (rule : Rule) (passed : Nat) (written : List Char) : List Char → List Char
  | [] => written.reverse
  | c :: rest =>
    match passed with
    | more + 1 => replaceFrom rule more written rest
    | 0 =>
      match rule (c :: rest) with
      | some (replacement, length) =>
        replaceFrom rule (length - 1) (replacement.reverse ++ written) rest
      | none => replaceFrom rule 0 (c :: written) rest

def replaceAll (rule : Rule) (cs : List Char) : List Char := replaceFrom rule 0 [] cs

/-- The rule that replaces one literal text by another. -/
def literal (source target : String) : Rule := fun cs =>
  if source.toList.isPrefixOf cs then some (target.toList, source.toList.length) else none

end Reckon.Text
