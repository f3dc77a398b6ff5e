import Reckon.Proofs.Decimal.Positional
import Reckon.Proofs.Token.Lexical

/-!
Texts that are cut into given tokens wherever they stand. What follows such a text
must not go on in its last token; in front of it nothing is asked. Positions are
not followed here.
-/

namespace Reckon.Token

/-- Whether a name or a numeral in front of the character ends there. -/
def separates (c : Char) : Bool := !continuesIdentifier c && c != '.'

/-- A name or a numeral in front of the text does not go on in it. -/
def Separate (rest : List Char) : Prop := ∀ c ∈ rest.head?, separates c

/-- The characters are cut into tokens of these kinds, whatever is separate from
them follows. -/
def Spells (cs : List Char) (kinds : List Kind) : Prop :=
  ∀ rest, Separate rest → ∀ position found, ∃ position' new,
    new.map Token.kind = kinds.reverse ∧
      scan 0 position found (cs ++ rest) = scan 0 position' (new ++ found) rest

variable {c : Char} {cs cs' rest : List Char} {kind : Kind} {kinds kinds' : List Kind}

theorem separate_nil : Separate [] := by simp [Separate]

theorem separate_cons (h : separates c) (rest : List Char) : Separate (c :: rest) := by
  simpa [Separate] using h

theorem toNat_of_isDigit (h : c.isDigit) : 48 ≤ c.toNat ∧ c.toNat ≤ 57 :=
  Char.isDigit_iff_toNat.1 h

theorem continuesIdentifier_of_isDigit (h : c.isDigit) : continuesIdentifier c := by
  have hlt : c.toNat < 0x80 := Nat.lt_of_le_of_lt (toNat_of_isDigit h).2 (by decide)
  simp [continuesIdentifier, Text.isAlphanumeric, Text.isDecimal, hlt, h]

theorem isBlank_of_isDigit (h : c.isDigit) : Text.isBlank c = false := by
  have hc := toNat_of_isDigit h
  simp [Text.isBlank, Text.inRanges, Text.blankRanges]
  omega

theorem ne_point_of_isDigit (h : c.isDigit) : c ≠ '.' := by
  rintro rfl
  exact absurd h (by decide)

theorem Separate.takeWhile (h : Separate rest) : rest.takeWhile continuesIdentifier = [] := by
  cases rest with
  | nil => rfl
  | cons c rest =>
      have hc : continuesIdentifier c = false := by
        have hs := h c rfl
        simp only [separates, Bool.and_eq_true, Bool.not_eq_true'] at hs
        exact hs.1
      simp [hc]

/-- What separates a name from its text also ends a numeral. -/
theorem Separate.stops (h : Separate rest) : Numeral.Stops rest := by
  intro c hc
  have hs := h c hc
  simp only [separates, Bool.and_eq_true, Bool.not_eq_true', bne_iff_ne] at hs
  refine ⟨?_, hs.2, ?_, ?_⟩
  · by_contra hd
    rw [Bool.not_eq_false] at hd
    rw [continuesIdentifier_of_isDigit hd] at hs
    exact absurd hs.1 (by decide)
  · rintro rfl
    exact absurd hs.1 (by decide)
  · rintro rfl
    exact absurd hs.1 (by decide)

/-- Characters that still belong to the last token are passed over. -/
theorem scan_pending (cs rest : List Char) (position : Nat) (found : List Token) :
    scan cs.length position found (cs ++ rest) = scan 0 (position + cs.length) found rest := by
  induction cs generalizing position with
  | nil => rfl
  | cons c cs ih =>
      simp only [List.length_cons, List.cons_append, scan, ih]
      congr 1
      omega

theorem spells_of_lexeme (hc : Text.isBlank c = false)
    (h : ∀ rest, Separate rest → lexeme c (cs ++ rest) = .ok (kind, cs.length)) :
    Spells (c :: cs) [kind] := by
  intro rest hr position found
  refine ⟨position + 1 + cs.length, [⟨kind, position⟩], rfl, ?_⟩
  simp [scan, hc, h rest hr, scan_pending]

theorem Spells.nil : Spells [] [] := fun _ _ position _ => ⟨position, [], rfl, rfl⟩

theorem Spells.blank (h : Spells cs kinds) : Spells (' ' :: cs) kinds := by
  intro rest hr position found
  obtain ⟨position', new, hn, hs⟩ := h rest hr (position + 1) found
  refine ⟨position', new, hn, ?_⟩
  have hb : Text.isBlank ' ' = true := by decide
  simp [scan, hb, hs]

theorem lexeme_of_ofChar (h : Kind.ofChar? c = some kind) (rest : List Char) :
    Text.isBlank c = false ∧ lexeme c rest = .ok (kind, 0) := by
  unfold Kind.ofChar? at h
  split at h <;> simp only [reduceCtorEq, Option.some.injEq] at h <;> subst h <;>
    exact ⟨by decide, rfl⟩

/-- A token of one character needs no separation from what follows it. -/
theorem Spells.symbol (hc : Kind.ofChar? c = some kind) (h : Spells cs kinds) :
    Spells (c :: cs) (kind :: kinds) := by
  intro rest hr position found
  obtain ⟨hb, hk⟩ := lexeme_of_ofChar hc (cs ++ rest)
  obtain ⟨position', new, hn, hs⟩ := h rest hr (position + 1) (⟨kind, position⟩ :: found)
  refine ⟨position', new ++ [⟨kind, position⟩], by simp [hn], ?_⟩
  simp [scan, hb, hk, hs]

/-- Two texts one behind the other, where the second begins with a separator. -/
theorem Spells.append (h : Spells cs kinds) (hc : separates c) (h' : Spells (c :: cs') kinds') :
    Spells (cs ++ c :: cs') (kinds ++ kinds') := by
  intro rest hr position found
  obtain ⟨position', new, hn, hs⟩ := h (c :: cs' ++ rest) (separate_cons hc _) position found
  obtain ⟨position'', new', hn', hs'⟩ := h' rest hr position' (new ++ found)
  refine ⟨position'', new' ++ new, by simp [hn, hn'], ?_⟩
  rw [List.append_assoc, hs, hs', List.append_assoc]

theorem spells_identifier {name : String} (h : (Kind.identifier name).Lexical) :
    Spells name.toList [.identifier name] := by
  obtain ⟨c, tail, hn, hb, hd, hs, ht⟩ := h
  rw [hn]
  refine spells_of_lexeme hb fun rest hr => ?_
  have hstart : Numeral.starts (c :: (tail ++ rest)) = false := by
    rw [starts_cons (ne_point_of_startsIdentifier hs), hd]
  have htail : (tail ++ rest).takeWhile continuesIdentifier = tail := by
    rw [List.takeWhile_append_of_pos (by simpa using ht), hr.takeWhile, List.append_nil]
  simp [lexeme, hstart, hs, htail, ← hn]

/-- The shortest digits of a number are cut as one token, and read as the number. -/
theorem spells_number {value : Binary64} (h : (Kind.number value).Lexical) :
    Spells (Decimal.plainChars value) [.number value] := by
  obtain ⟨m, hm, rfl⟩ := h
  obtain ⟨c, cs, hcs, hc⟩ := (Decimal.shortest m).positional_eq_cons
  rw [Decimal.plainChars_ofMagnitude hm, hcs]
  refine spells_of_lexeme (isBlank_of_isDigit hc) fun rest hr => ?_
  obtain ⟨htext, hbits⟩ := Decimal.read_positional (Decimal.shortest m) hr.stops
  rw [hcs, List.cons_append] at htext hbits
  rw [Decimal.shortest_bits hm] at hbits
  have hstart : Numeral.starts (c :: (cs ++ rest)) = true := by
    rw [starts_cons (ne_point_of_isDigit hc), hc]
  have hfinite : m ≠ Binary64.infinity := Nat.ne_of_lt hm
  simp [lexeme, hstart, htext, hbits, hfinite, Decimal.toBinary64]

theorem Spells.ofChars (h : Spells cs kinds) (position : Nat) :
    ∃ tokens, ofChars position cs = .ok tokens ∧
      tokens.dropLast.map Token.kind = kinds := by
  obtain ⟨position', new, hn, hs⟩ := h [] separate_nil position []
  refine ⟨new.reverse ++ [⟨.stop, position'⟩], ?_, ?_⟩
  · rw [List.append_nil] at hs
    simp [Token.ofChars, hs, scan]
  · simp [hn]

end Reckon.Token
