import Reckon.Json.Codec

/-!
Texts in documents: a string literal that was written is read as the text it was written for,
whatever characters it has, and so are the fields of an object that holds texts. What a reader
makes of other documents is not described.
-/

namespace Reckon.Json

/-- The bytes of characters. -/
def utf8 (cs : List Char) : Bytes := cs.flatMap String.utf8EncodeChar

/-- The text of a string literal whose bytes so far are these. -/
def spelled (bs : Bytes) : Spelled := ⟨bs.toByteArray, none, true⟩

variable {c : Char} {cs : List Char} {bs rest : Bytes}

theorem toList_loop_eq (bytes : ByteArray) (i : Nat) (found : List UInt8) :
    ByteArray.toList.loop bytes i found = found.reverse ++ bytes.data.toList.drop i := by
  induction i, found using ByteArray.toList.loop.induct bytes with
  | case1 i found hi ih =>
      have hi' : i < bytes.data.toList.length := by simpa using hi
      rw [ByteArray.toList.loop, if_pos hi, ih, List.drop_eq_getElem_cons hi']
      simp [ByteArray.get!, hi]
  | case2 i found hi =>
      have hi' : bytes.data.toList.length ≤ i := by simpa using hi
      rw [ByteArray.toList.loop, if_neg hi, List.drop_eq_nil_of_le hi', List.append_nil]

@[simp] theorem utf8_nil : utf8 [] = [] := rfl

@[simp] theorem utf8_cons (c : Char) (cs : List Char) :
    utf8 (c :: cs) = String.utf8EncodeChar c ++ utf8 cs := rfl

@[simp] theorem utf8_append (cs cs' : List Char) : utf8 (cs ++ cs') = utf8 cs ++ utf8 cs' :=
  List.flatMap_append

theorem toByteArray_utf8 (cs : List Char) : (utf8 cs).toByteArray = (String.ofList cs).toUTF8 :=
  rfl

theorem toList_toUTF8 (text : String) : text.toUTF8.toList = utf8 text.toList := by
  rw [← String.ofList_toList (s := text), ← toByteArray_utf8, ByteArray.toList, toList_loop_eq,
    String.toList_ofList]
  simp

theorem spelled_byte (bs : Bytes) (b : UInt8) : (spelled bs).byte b = spelled (bs ++ [b]) := by
  simp [spelled, Spelled.byte]

theorem spelled_character (bs : Bytes) (c : Char) :
    (spelled bs).character c.toNat = spelled (bs ++ String.utf8EncodeChar c) := by
  rw [Spelled.character, Char.ofNat_toNat]
  generalize String.utf8EncodeChar c = more
  induction more generalizing bs with
  | nil => rw [List.foldl_nil, List.append_nil]
  | cons b more ih => simpa [spelled] using ih (bs ++ [b])

theorem spelled_unit (bs : Bytes) (hc : c.toNat < 0xD800) :
    (spelled bs).unit c.toNat = spelled (bs ++ String.utf8EncodeChar c) := by
  have hlow : ¬ 0xDC00 ≤ c.toNat := by omega
  have hhigh : ¬ 0xD800 ≤ c.toNat := by omega
  rw [← spelled_character]
  simp [Spelled.unit, hlow, hhigh, spelled]

theorem spelled_text? (cs : List Char) : (spelled (utf8 cs)).text? = some (String.ofList cs) := by
  have hvalid : (utf8 cs).toByteArray.IsValidUTF8 := ByteArray.isValidUTF8_utf8Encode
  exact dif_pos hvalid

/-- A byte of a string literal that stands for itself. -/
def IsPlain (b : UInt8) : Prop := 0x20 ≤ b ∧ b ≠ 0x22 ∧ b ≠ 0x5C

theorem stringTail_plain {b : UInt8} (hb : IsPlain b) (bs rest : Bytes) :
    stringTail (spelled bs) (b :: rest) = stringTail (spelled (bs ++ [b])) rest := by
  obtain ⟨hle, hquote, hslash⟩ := hb
  rw [stringTail.eq_5 _ _ _ hquote (fun _ _ _ _ _ h => absurd h hslash)
    (fun _ _ h => absurd h hslash), if_neg (by simpa using hle), spelled_byte]

theorem stringTail_plains {more : Bytes} (hm : ∀ b ∈ more, IsPlain b) (bs rest : Bytes) :
    stringTail (spelled bs) (more ++ rest) = stringTail (spelled (bs ++ more)) rest := by
  induction more generalizing bs with
  | nil => rw [List.nil_append, List.append_nil]
  | cons b more ih =>
      obtain ⟨hb, hmore⟩ := List.forall_mem_cons.1 hm
      rw [List.cons_append, stringTail_plain hb, ih hmore, List.append_assoc, List.singleton_append]

theorem utf8EncodeChar_of_lt (hc : c.toNat < 0x80) :
    String.utf8EncodeChar c = [UInt8.ofNat c.toNat] :=
  if_pos (Nat.le_of_lt_succ hc)

theorem le_of_mem_utf8EncodeChar (hc : 0x80 ≤ c.toNat) :
    ∀ b ∈ String.utf8EncodeChar c, 0x80 ≤ b := by
  have hnot : ¬ c.val.toNat ≤ 0x7F := Nat.not_le.2 hc
  simp only [String.utf8EncodeChar, hnot, if_false]
  split
  · simp [UInt8.le_iff_toNat_le]
    omega
  · split <;> simp [UInt8.le_iff_toNat_le] <;> omega

/-- A character that needs no escape stands for itself in all its bytes. -/
theorem isPlain_of_mem_utf8EncodeChar (hc : 0x20 ≤ c.toNat) (hquote : c.toNat ≠ 0x22)
    (hslash : c.toNat ≠ 0x5C) : ∀ b ∈ String.utf8EncodeChar c, IsPlain b := by
  by_cases hlt : c.toNat < 0x80
  · rw [utf8EncodeChar_of_lt hlt]
    simp [IsPlain, UInt8.le_iff_toNat_le, ← UInt8.toNat_inj]
    omega
  · intro b hb
    have hle := UInt8.le_iff_toNat_le.1 (le_of_mem_utf8EncodeChar (Nat.le_of_not_lt hlt) b hb)
    simp [IsPlain, UInt8.le_iff_toNat_le, ← UInt8.toNat_inj] at hle ⊢
    omega

/-- The byte of a digit in base sixteen. -/
def hexByte (n : Nat) : UInt8 := UInt8.ofNat (hexChar n).toNat

theorem hexDigit?_hexByte {n : Nat} (hn : n < 16) :
    String.utf8EncodeChar (hexChar n) = [hexByte n] ∧ hexDigit? (hexByte n) = some n := by
  revert n
  decide

/-- A mark behind a backslash stands for itself. -/
theorem stringTail_mark {b : UInt8} (hb : b = 0x22 ∨ b = 0x5C) (bs rest : Bytes) :
    stringTail (spelled bs) (0x5C :: b :: rest) = stringTail (spelled (bs ++ [b])) rest := by
  have hu : b ≠ 0x75 := by obtain rfl | rfl := hb <;> decide
  have hescaped : escaped? b = some b := by obtain rfl | rfl := hb <;> rfl
  rw [stringTail.eq_4 _ _ _ fun _ _ _ _ _ h => absurd h hu, hescaped, ← spelled_byte]
  rfl

/-- A control character is written by its code. -/
theorem stringTail_code (hc : c.toNat < 0x20) (bs rest : Bytes) :
    stringTail (spelled bs) (utf8 [Char.ofNat 0x5C, 'u', '0', '0', hexChar (c.toNat / 16),
        hexChar (c.toNat % 16)] ++ rest) =
      stringTail (spelled (bs ++ String.utf8EncodeChar c)) rest := by
  obtain ⟨hhigh, hhigh'⟩ := hexDigit?_hexByte (n := c.toNat / 16) (by omega)
  obtain ⟨hlow, hlow'⟩ := hexDigit?_hexByte (n := c.toNat % 16) (by omega)
  have hbytes : utf8 [Char.ofNat 0x5C, 'u', '0', '0', hexChar (c.toNat / 16),
      hexChar (c.toNat % 16)] =
        [0x5C, 0x75, 0x30, 0x30, hexByte (c.toNat / 16), hexByte (c.toNat % 16)] := by
    simp only [utf8_cons, hhigh, hlow]
    rfl
  have hunit : hexUnit? 0x30 0x30 (hexByte (c.toNat / 16)) (hexByte (c.toNat % 16)) =
      some c.toNat := by
    have hzero : hexDigit? 0x30 = some 0 := rfl
    simp only [hexUnit?, hzero, hhigh', hlow']
    exact congrArg some (by omega)
  rw [hbytes]
  simp only [List.cons_append, List.nil_append]
  rw [stringTail.eq_3, hunit, ← spelled_unit bs (by omega)]
  rfl

/-- A character is read from what is written for it. -/
theorem stringTail_quoteChar (bs : Bytes) (c : Char) (rest : Bytes) :
    stringTail (spelled bs) (utf8 (quoteChar c) ++ rest) =
      stringTail (spelled (bs ++ String.utf8EncodeChar c)) rest := by
  unfold quoteChar
  split
  · rename_i hmark
    have hbyte : UInt8.ofNat c.toNat = 0x22 ∨ UInt8.ofNat c.toNat = 0x5C :=
      hmark.imp (congrArg UInt8.ofNat) (congrArg UInt8.ofNat)
    have hlt : c.toNat < 0x80 := by omega
    rw [utf8_cons, utf8_cons, utf8_nil, utf8EncodeChar_of_lt hlt]
    exact stringTail_mark hbyte bs rest
  · rename_i hmark
    split
    · rename_i hlt
      exact stringTail_code hlt bs rest
    · rename_i hle
      have hplain := isPlain_of_mem_utf8EncodeChar (Nat.le_of_not_lt hle) (fun h => hmark (.inl h))
        fun h => hmark (.inr h)
      rw [utf8_cons, utf8_nil, List.append_nil, stringTail_plains hplain]

theorem stringTail_quoteChars (bs : Bytes) (cs : List Char) (rest : Bytes) :
    stringTail (spelled bs) (utf8 (cs.flatMap quoteChar) ++ rest) =
      stringTail (spelled (bs ++ utf8 cs)) rest := by
  induction cs generalizing bs with
  | nil => simp
  | cons c cs ih =>
      rw [List.flatMap_cons, utf8_append, List.append_assoc, stringTail_quoteChar, ih, utf8_cons,
        List.append_assoc]

/-- A literal begins with its quote, and the rest of it is read as the text. -/
theorem utf8_quote (text : String) :
    utf8 (quote text).toList = 0x22 :: (utf8 (text.toList.flatMap quoteChar) ++ [0x22]) := by
  rw [quote, String.toList_ofList, List.cons_append, utf8_cons, utf8_append]
  rfl

theorem stringTail_quote (text : String) (rest : Bytes) :
    stringTail {} (utf8 (text.toList.flatMap quoteChar) ++ 0x22 :: rest) =
      some (some text, rest) := by
  have hread := stringTail_quoteChars [] text.toList (0x22 :: rest)
  rw [List.nil_append, stringTail.eq_2, spelled_text?, String.ofList_toList] at hread
  exact hread

section Objects

/-- An object that holds texts. -/
def ofTexts (entries : List (String × String)) : Json :=
  fields (entries.map fun entry => (entry.1, ofString entry.2))

/-- A field of such an object. -/
def entryBytes (entry : String × String) : Bytes :=
  utf8 (quote entry.1).toList ++ 0x3A :: utf8 (quote entry.2).toList

/-- The fields behind the first one. -/
def entriesBytes (entries : List (String × String)) : Bytes :=
  entries.flatMap fun entry => 0x2C :: entryBytes entry

variable {entry : String × String} {entries : List (String × String)}

theorem ofTexts_eq (entries : List (String × String)) :
    ofTexts entries = object (entries.map fun entry => (some entry.1, string (some entry.2))) := by
  simp [ofTexts, fields, ofString]

/-- The pieces that are written for a field. -/
def entryPieces (entry : String × String) : List String := [quote entry.1, ":", quote entry.2]

theorem writeFields_texts (written : List String) (entries : List (String × String)) :
    (writeFields written (entries.map fun entry => (some entry.1, string (some entry.2)))).reverse =
      written.reverse ++ entries.flatMap fun entry => "," :: entryPieces entry := by
  induction entries generalizing written with
  | nil => simp [writeFields]
  | cons entry entries ih => simp [writeFields, write, ih, entryPieces]

theorem utf8_join_entryPieces (entry : String × String) :
    utf8 (String.join (entryPieces entry)).toList = entryBytes entry := by
  simp [entryPieces, entryBytes]
  rfl

theorem utf8_comma : utf8 ",".toList = [0x2C] := by decide

theorem utf8_braces : utf8 "\x7b".toList = [0x7B] ∧ utf8 "\x7d".toList = [0x7D] := by decide

theorem utf8_join_entries (entries : List (String × String)) :
    utf8 (String.join (entries.flatMap fun entry => "," :: entryPieces entry)).toList =
      entriesBytes entries := by
  induction entries with
  | nil => rfl
  | cons entry entries ih =>
      rw [List.flatMap_cons, List.cons_append, String.join_cons, String.join_append,
        String.toList_append, String.toList_append, utf8_append, utf8_append, ih,
        utf8_join_entryPieces, utf8_comma, entriesBytes, entriesBytes, List.flatMap_cons,
        List.cons_append, List.cons_append, List.nil_append]

/-- The document that is written, byte for byte. -/
theorem utf8_text_ofTexts (entry : String × String) (entries : List (String × String)) :
    utf8 (ofTexts (entry :: entries)).text.toList =
      0x7B :: (entryBytes entry ++ (entriesBytes entries ++ [0x7D])) := by
  have hpieces : (write [] (ofTexts (entry :: entries))).reverse =
      "\x7b" :: (entryPieces entry ++
        ((entries.flatMap fun entry => "," :: entryPieces entry) ++ ["\x7d"])) := by
    rw [ofTexts_eq, List.map_cons, write, List.reverse_cons, writeFields_texts]
    simp [write, entryPieces]
  rw [text, hpieces, String.join_cons, String.join_append, String.join_append,
    String.toList_append, String.toList_append, String.toList_append, utf8_append, utf8_append,
    utf8_append, utf8_join_entryPieces, utf8_join_entries, String.join_cons, String.join_nil,
    String.append_empty, utf8_braces.1, utf8_braces.2, List.singleton_append]

theorem skipBlanks_cons {b : UInt8} (hb : isBlankByte b = false) (rest : Bytes) :
    skipBlanks (b :: rest) = b :: rest := by
  simp [skipBlanks, hb]

theorem valueAt_quote (bound : Nat) (text : String) (rest : Bytes) :
    valueAt (bound + 1) (utf8 (quote text).toList ++ rest) =
      some (string (some text), rest) := by
  rw [utf8_quote, List.cons_append, List.append_assoc, valueAt, skipBlanks_cons (by rfl)]
  simp only [List.singleton_append, stringTail_quote, Option.map_some]

section Field

variable (bound : Nat) (found : List (Option String × Json)) (entry : String × String)
  (entries : List (String × String)) (rest : Bytes)

/-- A field with its colon and its value, where more are to come. -/
theorem fieldsAt_entry_comma :
    fieldsAt (bound + 2) found (entryBytes entry ++ 0x2C :: rest) =
      fieldsAt (bound + 1) ((entry.1, string entry.2) :: found) rest := by
  rw [entryBytes, utf8_quote, List.append_assoc, List.cons_append, List.append_assoc, fieldsAt,
    skipBlanks_cons (by rfl)]
  simp only [List.cons_append, List.nil_append, stringTail_quote]
  rw [skipBlanks_cons (by rfl)]
  simp only [valueAt_quote, skipBlanks_cons (b := 0x2C) rfl]

/-- The last field. -/
theorem fieldsAt_entry_close :
    fieldsAt (bound + 2) found (entryBytes entry ++ 0x7D :: rest) =
      some (object ((some entry.1, string entry.2) :: found).reverse, rest) := by
  rw [entryBytes, utf8_quote, List.append_assoc, List.cons_append, List.append_assoc, fieldsAt,
    skipBlanks_cons (by rfl)]
  simp only [List.cons_append, List.nil_append, stringTail_quote]
  rw [skipBlanks_cons (by rfl)]
  simp only [valueAt_quote, skipBlanks_cons (b := 0x7D) rfl]

theorem fieldsAt_texts :
    fieldsAt (bound + entries.length + 2) found
        (entryBytes entry ++ (entriesBytes entries ++ 0x7D :: rest)) =
      some (object (found.reverse ++
        (entry :: entries).map fun entry => (some entry.1, string (some entry.2))), rest) := by
  induction entries generalizing entry found with
  | nil =>
      rw [entriesBytes, List.flatMap_nil, List.nil_append, fieldsAt_entry_close, List.reverse_cons]
      rfl
  | cons next entries ih =>
      rw [entriesBytes, List.flatMap_cons, List.append_assoc, List.cons_append,
        fieldsAt_entry_comma]
      exact (ih _ next).trans (by rw [List.reverse_cons, List.append_assoc]; rfl)

end Field

theorem length_le_length_entriesBytes (entries : List (String × String)) :
    entries.length ≤ (entriesBytes entries).length := by
  induction entries with
  | nil => exact Nat.zero_le _
  | cons entry entries ih =>
      rw [entriesBytes, List.flatMap_cons, List.cons_append, List.length_cons, List.length_cons,
        List.length_append]
      exact Nat.succ_le_succ (Nat.le_trans ih (Nat.le_add_left ..))

/-- An object of texts is read back from its document. -/
theorem read?_text_ofTexts (entry : String × String) (entries : List (String × String)) :
    read? (ofTexts (entry :: entries)).text.toUTF8.toList =
      some (ofTexts (entry :: entries)) := by
  have hvalue (bound : Nat) (hb : entries.length + 3 ≤ bound) :
      valueAt bound (utf8 (ofTexts (entry :: entries)).text.toList) =
        some (ofTexts (entry :: entries), []) := by
    obtain ⟨bound, rfl⟩ := Nat.exists_eq_add_of_le' hb
    obtain ⟨more, hmore⟩ : ∃ more,
        entryBytes entry ++ (entriesBytes entries ++ [0x7D]) = 0x22 :: more := by
      rw [entryBytes, utf8_quote]
      exact ⟨_, rfl⟩
    have hfields := fieldsAt_texts bound [] entry entries []
    rw [hmore] at hfields
    rw [utf8_text_ofTexts, hmore, ← Nat.add_assoc, valueAt, skipBlanks_cons (by rfl)]
    simp only [skipBlanks_cons (b := 0x22) rfl, ofTexts_eq]
    exact hfields
  have hlength : entries.length + 3 ≤
      2 * (utf8 (ofTexts (entry :: entries)).text.toList).length + 1 := by
    have hle := length_le_length_entriesBytes entries
    simp only [utf8_text_ofTexts, List.length_cons, List.length_append]
    omega
  rw [toList_toUTF8, read?, hvalue _ hlength]
  rfl

end Objects

/-- What is relied on where objects of texts are exchanged: what is written is read back. -/
structure Codec.Lawful (codec : Codec) : Prop where
  read_write : ∀ entry entries, ((entry :: entries).map Prod.fst).Nodup →
    codec.read? (codec.write (ofTexts (entry :: entries))) = some (ofTexts (entry :: entries))

theorem strict_lawful : strict.Lawful where
  read_write entry entries _ := read?_text_ofTexts entry entries

end Reckon.Json
