import Reckon.Json.Basic

/-!
Reading a JSON document from its bytes. The grammar is the strict one: no comments, no trailing
commas, no control characters in strings, nothing but blanks around the value.
-/

namespace Reckon.Json

/-- What is left of the document. -/
abbrev Bytes := List UInt8

def isBlankByte (b : UInt8) : Bool := b == 0x20 || b == 0x0A || b == 0x0D || b == 0x09

def skipBlanks (bs : Bytes) : Bytes := bs.dropWhile isBlankByte

def hexDigit? (b : UInt8) : Option Nat :=
  if 0x30 ≤ b && b ≤ 0x39 then some (b.toNat - 0x30)
  else if 0x41 ≤ b && b ≤ 0x46 then some (b.toNat - 0x41 + 10)
  else if 0x61 ≤ b && b ≤ 0x66 then some (b.toNat - 0x61 + 10)
  else none

def hexUnit? (a b c d : UInt8) : Option Nat := do
  return ((← hexDigit? a) * 16 + (← hexDigit? b)) * 256 + ((← hexDigit? c) * 16 + (← hexDigit? d))

/-- The character of a one-letter escape. -/
def escaped? (b : UInt8) : Option UInt8 :=
  match b with
  | 0x22 => some 0x22
  | 0x5C => some 0x5C
  | 0x2F => some 0x2F
  | 0x62 => some 0x08
  | 0x66 => some 0x0C
  | 0x6E => some 0x0A
  | 0x72 => some 0x0D
  | 0x74 => some 0x09
  | _ => none

/-- The text of a string literal so far: its bytes, the first half of a surrogate pair if one has
just been read, and whether all other halves found their partner. -/
structure Spelled where
  bytes : ByteArray := .empty
  high : Option Nat := none
  paired : Bool := true

namespace Spelled

def byte (s : Spelled) (b : UInt8) : Spelled :=
  ⟨s.bytes.push b, none, s.paired && s.high.isNone⟩

def character (s : Spelled) (code : Nat) : Spelled :=
  (String.utf8EncodeChar (Char.ofNat code)).foldl (fun s b => ⟨s.bytes.push b, none, s.paired⟩) s

/-- Add one UTF-16 unit. -/
def unit (s : Spelled) (u : Nat) : Spelled :=
  if 0xDC00 ≤ u && u < 0xE000 then
    match s.high with
    | some high => s.character (0x10000 + (high - 0xD800) * 0x400 + (u - 0xDC00))
    | none => { s with paired := false }
  else
    let s : Spelled := ⟨s.bytes, none, s.paired && s.high.isNone⟩
    if 0xD800 ≤ u && u < 0xDC00 then { s with high := some u } else s.character u

def text? (s : Spelled) : Option String :=
  if s.paired && s.high.isNone then String.fromUTF8? s.bytes else none

end Spelled

/-- The rest of a string literal behind its opening quote. -/
def stringTail (s : Spelled) : Bytes → Option (Option String × Bytes)
  | [] => none
  | 0x22 :: rest => some (s.text?, rest)
  | 0x5C :: 0x75 :: a :: b :: c :: d :: rest => do stringTail (s.unit (← hexUnit? a b c d)) rest
  | 0x5C :: e :: rest => do stringTail (s.byte (← escaped? e)) rest
  | b :: rest => if b < 0x20 then none else stringTail (s.byte b) rest

def isDigitByte (b : UInt8) : Bool := 0x30 ≤ b && b ≤ 0x39

def digitsAt (bs : Bytes) : List Char :=
  (bs.takeWhile isDigitByte).map fun b => Char.ofNat b.toNat

/-- The exponent of a number, which must have digits if it has a mark. -/
def scaleAt : Bytes → Option (Option Numeral.Scale × Bytes)
  | [] => some (none, [])
  | mark :: rest =>
    if mark = 0x65 ∨ mark = 0x45 then
      let sign := match rest with
        | 0x2B :: _ => ['+']
        | 0x2D :: _ => ['-']
        | _ => []
      let rest := rest.drop sign.length
      let digits := digitsAt rest
      if digits = [] then none
      else some (some ⟨Char.ofNat mark.toNat, sign, digits⟩, rest.drop digits.length)
    else some (none, mark :: rest)

/-- The fraction of a number, which must have digits if it has a point. -/
def fractionAt : Bytes → Option (Option (List Char) × Bytes)
  | 0x2E :: rest =>
    let digits := digitsAt rest
    if digits = [] then none else some (some digits, rest.drop digits.length)
  | bs => some (none, bs)

/-- A number; only zero itself may start with a zero digit. -/
def numberAt (bs : Bytes) : Option (Number × Bytes) := do
  let (negative, bs) := match bs with
    | 0x2D :: rest => (true, rest)
    | _ => (false, bs)
  let whole := digitsAt bs
  if whole = [] || (whole.head? = some '0' && whole.length != 1) then none
  else
    let (fraction, bs) ← fractionAt (bs.drop whole.length)
    let (scale, bs) ← scaleAt bs
    return (⟨negative, ⟨whole, fraction, scale⟩⟩, bs)

/-- The rest behind a word, if the document goes on with it. -/
def wordAt (word : List UInt8) (bs : Bytes) : Option Bytes :=
  if word.isPrefixOf bs then some (bs.drop word.length) else none

mutual

/-- A value, behind any blanks. Each step takes at least one byte or leads to one that does, which
bounds the steps by twice the length of the document. -/
def valueAt : Nat → Bytes → Option (Json × Bytes)
  | 0, _ => none
  | bound + 1, bs =>
    match skipBlanks bs with
    | [] => none
    | 0x22 :: rest => (stringTail {} rest).map fun (text, rest) => (.string text, rest)
    | 0x5B :: rest =>
      match skipBlanks rest with
      | 0x5D :: rest => some (.array [], rest)
      | rest => itemsAt bound [] rest
    | 0x7B :: rest =>
      match skipBlanks rest with
      | 0x7D :: rest => some (.object [], rest)
      | rest => fieldsAt bound [] rest
    | 0x74 :: rest => (wordAt [0x72, 0x75, 0x65] rest).map fun rest => (.bool true, rest)
    | 0x66 :: rest => (wordAt [0x61, 0x6C, 0x73, 0x65] rest).map fun rest => (.bool false, rest)
    | 0x6E :: rest => (wordAt [0x75, 0x6C, 0x6C] rest).map fun rest => (.null, rest)
    | bs => (numberAt bs).map fun (n, rest) => (.number n, rest)

/-- The items of an array that are left, in reverse behind those `found`. -/
def itemsAt : Nat → List Json → Bytes → Option (Json × Bytes)
  | 0, _, _ => none
  | bound + 1, found, bs =>
    match valueAt bound bs with
    | none => none
    | some (item, rest) =>
      match skipBlanks rest with
      | 0x2C :: rest => itemsAt bound (item :: found) rest
      | 0x5D :: rest => some (.array (item :: found).reverse, rest)
      | _ => none

/-- The fields of an object that are left, in reverse behind those `found`. -/
def fieldsAt : Nat → List (Option String × Json) → Bytes → Option (Json × Bytes)
  | 0, _, _ => none
  | bound + 1, found, bs =>
    match skipBlanks bs with
    | 0x22 :: rest =>
      match stringTail {} rest with
      | none => none
      | some (key, rest) =>
        match skipBlanks rest with
        | 0x3A :: rest =>
          match valueAt bound rest with
          | none => none
          | some (value, rest) =>
            match skipBlanks rest with
            | 0x2C :: rest => fieldsAt bound ((key, value) :: found) rest
            | 0x7D :: rest => some (.object ((key, value) :: found).reverse, rest)
            | _ => none
        | _ => none
    | _ => none

end

/-- The document in these bytes, if it is one. -/
def read? (bs : Bytes) : Option Json :=
  match valueAt (2 * bs.length + 1) bs with
  | some (value, rest) => if skipBlanks rest = [] then some value else none
  | none => none

def ofText? (text : String) : Option Json := read? text.toUTF8.toList

end Reckon.Json
