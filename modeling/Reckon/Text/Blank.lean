import Reckon.Text.Range

/-!
Blank characters (the Unicode property White_Space) and trimming.
-/

namespace Reckon.Text

/-- The blank code points, in order. -/
def blankRanges : List (Nat × Nat) := [
  (0x9, 0xD), (0x20, 0x20), (0x85, 0x85), (0xA0, 0xA0), (0x1680, 0x1680), (0x2000, 0x200A),
  (0x2028, 0x2029), (0x202F, 0x202F), (0x205F, 0x205F), (0x3000, 0x3000)]

def isBlank (c : Char) : Bool := inRanges blankRanges c

def trimLeft (cs : List Char) : List Char := cs.dropWhile isBlank

/-- The text without its longest tail of characters that satisfy `p`. -/
def dropTailWhile (p : Char → Bool) (cs : List Char) : List Char :=
  (cs.reverse.dropWhile p).reverse

def trimRight (cs : List Char) : List Char := dropTailWhile isBlank cs

def trim (cs : List Char) : List Char := trimRight (trimLeft cs)

end Reckon.Text
