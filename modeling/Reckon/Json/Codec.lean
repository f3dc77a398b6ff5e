import Reckon.Json.Reader
import Reckon.Json.Writer

/-!
Writing and reading documents as something given, for those who exchange documents and need not know
how. `Json.strict` is what runs here.
-/

namespace Reckon.Json

structure Codec where
  write : Json → List UInt8
  /-- The document in these bytes, if it is one. -/
  read? : List UInt8 → Option Json
  /-- The binary64 number that a number of a document is taken for, if it is taken for one. -/
  float? : Number → Option Binary64

/-- Documents without blanks, the strict grammar, and the nearest binary64 number within range. -/
def strict : Codec where
  write document := document.text.toUTF8.toList
  read? := Json.read?
  float? n := if n.toBinary64.isFinite then some n.toBinary64 else none

end Reckon.Json
