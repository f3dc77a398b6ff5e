import Reckon.Proofs.Token.Lexemes

/-!
A text that is cut into tokens, as the slices that its tokens take from it. The slices stand
where the tokens do, one behind the other, and what is between them are blanks. That the slices
are tokens, and the longest ones at their places, is known of each of them alone.

The text of a number is one that any reader of numbers accepts, so cutting never fails because
the reader refuses one.
-/

namespace Reckon.Token

/-- A text from the given position on, as blanks and the slices of its tokens. -/
inductive Cut : Nat → List Char → List Token → List (List Char) → Prop
  | nil (position) : Cut position [] [] []
  | blank {position c cs tokens slices} : Text.isBlank c →
      Cut (position + 1) cs tokens slices → Cut position (c :: cs) tokens slices
  | token {position kind slice rest tokens slices} : Longest slice (slice ++ rest) →
      kind.Takes slice (slice ++ rest) → Cut (position + slice.length) rest tokens slices →
      Cut position (slice ++ rest) (⟨kind, position⟩ :: tokens) (slice :: slices)

/-- The token takes the slice from the text, from its own position on. -/
def TakenAt (offset : Nat) (text : List Char) (t : Token) (slice : List Char) : Prop :=
  offset ≤ t.position ∧ Longest slice (text.drop (t.position - offset)) ∧
    t.kind.Takes slice (text.drop (t.position - offset))

/-- The tokens in front of the end take these slices from the text, each its own, and leave
nothing but blanks. -/
structure Covers (offset : Nat) (text : List Char) (tokens : List Token)
    (slices : List (List Char)) : Prop where
  taken : List.Forall₂ (TakenAt offset text) tokens slices
  increasing : (tokens.map Token.position ++ [offset + text.length]).Pairwise (· < ·)
  disjoint : (tokens.zip slices).Pairwise fun a b => a.1.position + a.2.length ≤ b.1.position
  flatten : slices.flatten = text.filter fun c => !Text.isBlank c

variable {c : Char} {cs text : List Char} {tokens found : List Token} {slices : List (List Char)}
  {offset position : Nat}

/-- A token of the end of a text is one of the whole text. -/
theorem TakenAt.behind {t : Token} {slice : List Char} (front : List Char)
    (h : TakenAt (offset + front.length) cs t slice) : TakenAt offset (front ++ cs) t slice := by
  obtain ⟨hle, htaken⟩ := h
  have hplace : t.position - offset = front.length + (t.position - (offset + front.length)) := by
    omega
  refine ⟨by omega, ?_⟩
  rwa [hplace, List.drop_length_add_append]

/-- Characters that still belong to the last token are passed over. -/
theorem scan_drop (pending position : Nat) (found : List Token) (cs : List Char) :
    scan pending position found cs =
      scan 0 (position + (cs.take pending).length) found (cs.drop pending) := by
  induction cs generalizing pending position with
  | nil => cases pending <;> rfl
  | cons c rest ih =>
      cases pending with
      | zero => rfl
      | succ more =>
          rw [scan, ih, List.take_succ_cons, List.drop_succ_cons, List.length_cons]
          congr 1
          omega

/-- What scanning adds to the tokens found so far. -/
theorem cut_of_scan (h : scan 0 position found cs = .ok tokens) :
    ∃ front slices, tokens = found.reverse ++ (front ++ [⟨.stop, position + cs.length⟩]) ∧
      Cut position cs front slices := by
  induction hn : cs.length using Nat.strongRecOn generalizing position found cs with
  | ind n ih =>
      subst hn
      cases cs with
      | nil =>
          simp only [scan, Except.ok.injEq] at h
          exact ⟨[], [], by simpa using h.symm, .nil position⟩
      | cons c rest =>
          simp only [scan] at h
          split at h
          · rename_i hb
            obtain ⟨front, slices, rfl, hcut⟩ := ih rest.length (Nat.lt_succ_self _) h rfl
            refine ⟨front, slices, ?_, .blank hb hcut⟩
            simp [Nat.add_assoc, Nat.add_comm 1]
          · rename_i hb
            split at h
            · cases h
            · rename_i kind more hk
              obtain ⟨hlongest, htakes⟩ := longest_of_lexeme (by simpa using hb) hk
              have hsplit : c :: rest = (c :: rest.take more) ++ rest.drop more := by simp
              have hnext : position + 1 + (rest.take more).length =
                  position + (c :: rest.take more).length := by
                rw [List.length_cons]
                omega
              have hlength : (rest.drop more).length < (c :: rest).length :=
                Nat.lt_succ_of_le (List.drop_sublist more rest).length_le
              rw [scan_drop, hnext] at h
              obtain ⟨front, slices, rfl, hcut⟩ := ih _ hlength h rfl
              rw [hsplit] at hlongest htakes ⊢
              refine ⟨⟨kind, position⟩ :: front, (c :: rest.take more) :: slices, ?_,
                .token hlongest htakes hcut⟩
              rw [List.length_append, ← Nat.add_assoc]
              simp

namespace Cut

/-- All characters but the blanks are in the slices, in their order. -/
theorem flatten (h : Cut position cs tokens slices) :
    slices.flatten = cs.filter fun c => !Text.isBlank c := by
  induction h with
  | nil => rfl
  | blank hb _ ih => simp [hb, ih]
  | token hl _ _ ih =>
      have hself := List.filter_eq_self.2 fun c hc =>
        congrArg (! ·) (hl.lexeme.not_isBlank c hc)
      rw [List.filter_append, hself, List.flatten_cons, ih]

theorem taken (h : Cut position cs tokens slices) :
    List.Forall₂ (TakenAt position cs) tokens slices := by
  induction h with
  | nil => exact .nil
  | @blank _ c _ _ _ _ _ ih => exact ih.imp fun t slice ht => ht.behind [c]
  | @token _ _ slice _ _ _ hl ht _ ih =>
      refine .cons ?_ (ih.imp fun t slice' ht' => ht'.behind slice)
      simpa [TakenAt] using ⟨hl, ht⟩

/-- Each token begins within the text. -/
theorem bounds (h : Cut position cs tokens slices) :
    ∀ t ∈ tokens, position ≤ t.position ∧ t.position < position + cs.length := by
  induction h with
  | nil => simp
  | blank _ _ ih =>
      intro t ht
      have hbounds := ih t ht
      rw [List.length_cons]
      omega
  | token hl _ _ ih =>
      have hpos := List.length_pos_iff.2 hl.lexeme.ne_nil
      rw [List.length_append]
      refine List.forall_mem_cons.2 ⟨⟨Nat.le_refl _, by dsimp only; omega⟩, fun t ht => ?_⟩
      have hbounds := ih t ht
      omega

theorem disjoint (h : Cut position cs tokens slices) :
    (tokens.zip slices).Pairwise fun a b => a.1.position + a.2.length ≤ b.1.position := by
  induction h with
  | nil => exact .nil
  | blank _ _ ih => exact ih
  | token _ _ hrest ih =>
      refine List.pairwise_cons.2 ⟨fun p hp => ?_, ih⟩
      exact (hrest.bounds p.1 (List.of_mem_zip hp).1).1

theorem increasing (h : Cut position cs tokens slices) :
    (tokens.map Token.position ++ [position + cs.length]).Pairwise (· < ·) := by
  induction h with
  | nil => exact List.pairwise_singleton _ _
  | @blank position c cs _ _ _ _ ih =>
      rwa [Nat.add_right_comm] at ih
  | @token position _ slice rest _ _ hl _ hrest ih =>
      have hpos := List.length_pos_iff.2 hl.lexeme.ne_nil
      rw [Nat.add_assoc, ← List.length_append] at ih
      refine List.pairwise_cons.2 ⟨List.forall_mem_append.2 ⟨?_, ?_⟩, ih⟩
      · refine List.forall_mem_map.2 fun t ht => ?_
        have hbounds := hrest.bounds t ht
        dsimp only
        omega
      · rw [List.forall_mem_singleton, List.length_append]
        dsimp only
        omega

theorem covers (h : Cut position cs tokens slices) : Covers position cs tokens slices :=
  ⟨h.taken, h.increasing, h.disjoint, h.flatten⟩

end Cut

section Readers

/-- Reads the text of a numeral as a number, or refuses it. -/
abbrev NumberReader := List Char → Option Binary64

/-- The reader accepts all texts of numerals. -/
def NumberReader.Accepts (read? : NumberReader) : Prop :=
  ∀ n : Numeral, n.WellFormed → n.HasDigits → (read? n.text).isSome

/-- The reader gives the texts of numerals their values. -/
def NumberReader.IsExact (read? : NumberReader) : Prop :=
  ∀ n : Numeral, n.WellFormed → n.HasDigits → read? n.text = some n.value.toBinary64

/-- What is said of a numeral that the reader refuses. -/
def invalidNumber (numeral : List Char) : ParseFault :=
  .stated ("invalid number '" ++ String.ofList numeral ++ "'")

/-- The token that starts with `c` and goes on in `rest`, where the reader decides what numerals
are numbers. -/
def lexemeBy (read? : NumberReader) (c : Char) (rest : List Char) :
    Except ParseFault (Kind × Nat) :=
  if Numeral.starts (c :: rest) then
    let numeral := (Numeral.read (c :: rest)).text
    match read? numeral with
    | none => .error (invalidNumber numeral)
    | some value =>
      if value.isFinite then .ok (.number value, numeral.length - 1)
      else .error (.numberOutOfRange (String.ofList numeral))
  else lexeme c rest

/-- Cut a text, taking each token as `lexeme` says. -/
def scanBy (lexeme : Char → List Char → Except ParseFault (Kind × Nat))
    (pending position : Nat) (found : List Token) : List Char → Except Failure (List Token)
  | [] => .ok (⟨.stop, position⟩ :: found).reverse
  | c :: rest =>
    match pending with
    | more + 1 => scanBy lexeme more (position + 1) found rest
    | 0 =>
      if Text.isBlank c then scanBy lexeme 0 (position + 1) found rest
      else match lexeme c rest with
        | .error fault => .error (.of (.parse position fault))
        | .ok (kind, more) => scanBy lexeme more (position + 1) (⟨kind, position⟩ :: found) rest

/-- The tokens of a text by a reader of numbers. -/
def ofCharsBy (read? : NumberReader) (position : Nat) (cs : List Char) :
    Except Failure (List Token) :=
  scanBy (lexemeBy read?) 0 position [] cs

variable {read? : NumberReader}

theorem scanBy_lexeme (pending position : Nat) (found : List Token) (cs : List Char) :
    scanBy lexeme pending position found cs = scan pending position found cs := by
  induction cs generalizing pending position found with
  | nil => rfl
  | cons c rest ih =>
      cases pending with
      | succ more => exact ih more (position + 1) found
      | zero =>
          rw [scanBy, scan]
          by_cases hblank : Text.isBlank c
          · rw [if_pos hblank, if_pos hblank, ih]
          · rw [if_neg hblank, if_neg hblank]
            cases lexeme c rest with
            | error fault => rfl
            | ok taken => exact ih ..

/-- Cutting fails as some token does. -/
theorem exists_of_scanBy_eq_error {lexeme : Char → List Char → Except ParseFault (Kind × Nat)}
    {pending : Nat} {f : Failure} (h : scanBy lexeme pending position found cs = .error f) :
    ∃ place c rest fault, lexeme c rest = .error fault ∧ f = .of (.parse place fault) := by
  induction cs generalizing pending position found with
  | nil => cases h
  | cons c rest ih =>
      cases pending with
      | succ more => exact ih h
      | zero =>
          simp only [scanBy] at h
          split at h
          · exact ih h
          · split at h
            · rename_i fault hk
              cases h
              exact ⟨position, c, rest, fault, hk, rfl⟩
            · exact ih h

theorem lexeme_ne_stated (c : Char) (rest : List Char) (reason : String) :
    lexeme c rest ≠ .error (.stated reason) := by
  unfold lexeme
  split
  · dsimp only
    split <;> simp
  · split
    · simp
    · split <;> simp

theorem lexemeBy_ne_invalidNumber (hread : read?.Accepts) (c : Char) (rest numeral : List Char) :
    lexemeBy read? c rest ≠ .error (invalidNumber numeral) := by
  unfold lexemeBy
  split
  · rename_i hs
    obtain ⟨value, hvalue⟩ := Option.isSome_iff_exists.1
      (hread _ (Numeral.read_wellFormed _) (Numeral.hasDigits_read hs))
    simp only [hvalue]
    split <;> simp [invalidNumber]
  · exact lexeme_ne_stated c rest _

/-- A reader that gives numerals their values is the one that the lexer has. -/
theorem lexemeBy_eq_lexeme (hread : read?.IsExact) : lexemeBy read? = lexeme := by
  funext c rest
  unfold lexemeBy lexeme
  split
  · rename_i hs
    have hvalue := hread _ (Numeral.read_wellFormed _) (Numeral.hasDigits_read hs)
    have hfinite := Decimal.isFinite_toBinary64 (Numeral.read (c :: rest)).value
    by_cases hbits : (Numeral.read (c :: rest)).value.bits = Binary64.infinity
    · simp [hvalue, hbits, hfinite]
    · simp [hvalue, hbits, hfinite]
  · rfl

end Readers

/-- A text that can be cut is cut into tokens that stand in strictly increasing order, the last
one at its end. Each of the others takes the longest token that stands at its place, none takes
what another one takes, and together they take all characters but the blanks. A text is never
refused because a numeral in it is no number, provided that numbers are read by a reader that
accepts numerals; and one that gives them their values cuts no text otherwise. -/
theorem ofChars_covers :
    (∀ offset text tokens, ofChars offset text = .ok tokens →
      ∃ front slices, tokens = front ++ [⟨.stop, offset + text.length⟩] ∧
        Covers offset text front slices) ∧
    (∀ read? : NumberReader, read?.Accepts → ∀ offset text place numeral,
      ofCharsBy read? offset text ≠ .error (.of (.parse place (invalidNumber numeral)))) ∧
    ∀ read? : NumberReader, read?.IsExact → ∀ offset text,
      ofCharsBy read? offset text = ofChars offset text := by
  refine ⟨fun offset text tokens h => ?_, fun read? hread offset text place numeral h => ?_,
    fun read? hread offset text => ?_⟩
  · obtain ⟨front, slices, rfl, hcut⟩ := cut_of_scan h
    exact ⟨front, slices, rfl, hcut.covers⟩
  · obtain ⟨place', c, rest, fault, hk, hf⟩ := exists_of_scanBy_eq_error h
    obtain ⟨-, rfl⟩ := Cause.parse.inj (congrArg Failure.cause hf)
    exact lexemeBy_ne_invalidNumber hread c rest numeral hk
  · rw [ofCharsBy, lexemeBy_eq_lexeme hread, scanBy_lexeme, ofChars]

/-- The first exponent mark has no digit behind its sign and is a name, the second one has. -/
theorem ofChars_covers_marks :
    (∃ tokens front slices, ofChars 3 " 1.e+.5E-1é".toList = .ok tokens ∧
      tokens = front ++ [⟨.stop, 14⟩] ∧ Covers 3 " 1.e+.5E-1é".toList front slices ∧
      slices.flatten = "1.e+.5E-1é".toList) ∧
    ∃ read? : NumberReader, read?.Accepts ∧ read?.IsExact ∧
      ofCharsBy read? 3 " 1.e+.5E-1é".toList ≠
        .error (.of (.parse 4 (invalidNumber ['1', '.']))) ∧
      ofCharsBy read? 3 " 1.e+.5E-1é".toList = ofChars 3 " 1.e+.5E-1é".toList := by
  obtain ⟨hcovers, hvalid, hexact⟩ := ofChars_covers
  constructor
  · have hcut : (ofChars 3 " 1.e+.5E-1é".toList).isOk := by decide +kernel
    cases h : ofChars 3 " 1.e+.5E-1é".toList with
    | error f =>
        rw [h] at hcut
        cases hcut
    | ok tokens =>
        obtain ⟨front, slices, ht, hc⟩ := hcovers 3 _ tokens h
        exact ⟨tokens, front, slices, rfl, ht, hc, hc.flatten.trans (by decide +kernel)⟩
  · have hread : NumberReader.IsExact fun cs => some (Numeral.read cs).value.toBinary64 := by
      intro n hn _
      have hself : Numeral.read (n.text ++ []) = n :=
        Numeral.read_text_append hn (by simp [Numeral.Stops])
      rw [List.append_nil] at hself
      exact congrArg (fun n : Numeral => some n.value.toBinary64) hself
    exact ⟨_, fun _ _ _ => rfl, hread, hvalid _ (fun _ _ _ => rfl) _ _ _ _, hexact _ hread _ _⟩

end Reckon.Token
