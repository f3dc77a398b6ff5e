import Reckon.Proofs.Token.Kinds

/-!
The texts that tokens are written as, and that the lexer takes the longest of them. What a
token is written as is said here without the lexer: a numeral by its parts, a name by its
characters, every other token by its one character. No text is a token of two sorts, so the
longest token at a place is the longest one of its sort.
-/

namespace Reckon

namespace Numeral

/-- Digits in front of the point or behind it. -/
def HasDigits (n : Numeral) : Prop := n.whole ≠ [] ∨ ∃ digits ∈ n.fraction, digits ≠ []

/-- The numeral without its exponent. -/
def mantissa (n : Numeral) : Numeral := { n with scale := none }

/-- An exponent could begin here: a mark, a sign or none, and a digit. -/
def Scale.Begins (cs : List Char) : Prop :=
  ∃ mark sign digit rest, cs = mark :: (sign ++ digit :: rest) ∧ (mark = 'e' ∨ mark = 'E') ∧
    (sign = [] ∨ sign = ['+'] ∨ sign = ['-']) ∧ digit.isDigit

variable {n : Numeral} {cs rest : List Char}

theorem prefix_takeWhile {p : Char → Bool} {xs : List Char} (hx : ∀ c ∈ xs, p c)
    (rest : List Char) : xs <+: (xs ++ rest).takeWhile p := by
  rw [List.takeWhile_append_of_pos hx]
  exact List.prefix_append ..

theorem Scale.WellFormed.begins {s : Scale} (hs : s.WellFormed) (rest : List Char) :
    Begins (s.text ++ rest) := by
  obtain ⟨digit, digits, hd⟩ := List.exists_cons_of_ne_nil hs.nonempty
  refine ⟨s.mark, s.sign, digit, digits ++ rest, ?_, hs.mark, hs.sign, ?_⟩
  · simp [text, hd]
  · exact hs.digits digit (hd ▸ List.mem_cons_self)

/-- Where an exponent could begin, one is read. -/
theorem Scale.exists_read?_of_begins (h : Begins cs) : ∃ s, read? cs = some s := by
  obtain ⟨mark, sign, digit, rest, rfl, hmark, hsign, hdigit⟩ := h
  obtain ⟨hplus, hminus⟩ := ne_sign_of_isDigit hdigit
  obtain rfl | rfl | rfl := hsign
  · simp [read?_cons_cons, hmark, hplus, hminus, hdigit]
  · simp [read?_cons_cons, hmark, hdigit]
  · simp [read?_cons_cons, hmark, hdigit]

theorem Scale.isSome_read?_iff : (read? cs).isSome ↔ Begins cs := by
  rw [Option.isSome_iff_exists]
  constructor
  · rintro ⟨s, hs⟩
    obtain ⟨rest, rfl⟩ := prefix_text hs
    exact (wellFormed_of_read? hs).begins rest
  · exact exists_read?_of_begins

/-- The exponent that is read is no shorter than one that stands there. -/
theorem Scale.length_text_le {s : Scale} (hs : s.WellFormed) (rest : List Char) :
    ∃ s', read? (s.text ++ rest) = some s' ∧ s.text.length ≤ s'.text.length := by
  obtain ⟨mark, sign, digits⟩ := s
  obtain ⟨hmark, hsign, hne, hdigits⟩ := hs
  obtain ⟨digit, digits, rfl⟩ := List.exists_cons_of_ne_nil hne
  have hdigit : digit.isDigit := hdigits digit List.mem_cons_self
  obtain ⟨hplus, hminus⟩ := ne_sign_of_isDigit hdigit
  have hlength : digits.length + 1 ≤
      ((digit :: (digits ++ rest)).takeWhile Char.isDigit).length :=
    (prefix_takeWhile hdigits rest).length_le
  have htake : (digit :: (digits ++ rest)).takeWhile Char.isDigit ≠ [] := by simp [hdigit]
  obtain rfl | rfl | rfl := hsign
  · refine ⟨⟨mark, [], (digit :: (digits ++ rest)).takeWhile Char.isDigit⟩, ?_, ?_⟩
    · simp [text, read?_cons_cons, hmark, hplus, hminus, htake]
    · simpa [text] using hlength
  · refine ⟨⟨mark, ['+'], (digit :: (digits ++ rest)).takeWhile Char.isDigit⟩, ?_, ?_⟩
    · simp [text, read?_cons_cons, hmark, htake]
    · simpa [text] using hlength
  · refine ⟨⟨mark, ['-'], (digit :: (digits ++ rest)).takeWhile Char.isDigit⟩, ?_, ?_⟩
    · simp [text, read?_cons_cons, hmark, htake]
    · simpa [text] using hlength

/-- Digits with neither a further digit nor a point behind them. -/
theorem read_whole_append {whole : List Char} (hw : ∀ c ∈ whole, c.isDigit)
    (h : ∀ c ∈ rest.head?, c.isDigit = false ∧ c ≠ '.') :
    read (whole ++ rest) = ⟨whole, none, Scale.read? rest⟩ := by
  have htake := takeWhile_isDigit_append hw fun c hc => (h c hc).1
  simp only [read, htake, List.drop_left]
  split
  · exact absurd rfl (h _ rfl).2
  · simp

/-- Digits with a point behind them, which takes all digits that follow. -/
theorem read_point_append {whole : List Char} (hw : ∀ c ∈ whole, c.isDigit) (rest : List Char) :
    read (whole ++ '.' :: rest) = ⟨whole, some (rest.takeWhile Char.isDigit),
      Scale.read? (rest.drop (rest.takeWhile Char.isDigit).length)⟩ := by
  have htake : (whole ++ '.' :: rest).takeWhile Char.isDigit = whole :=
    takeWhile_isDigit_append hw (by simp)
  simp [read, htake]

theorem length_text (n : Numeral) : n.text.length =
    n.whole.length + n.fraction.elim 0 (·.length + 1) + (n.scale.elim [] Scale.text).length := by
  cases n with
  | mk whole fraction scale => cases fraction <;> simp [text, Nat.add_assoc, Nat.add_comm 1]

/-- The numeral that is read is no shorter than one that stands there. -/
theorem length_text_le (hn : n.WellFormed) (rest : List Char) :
    n.text.length ≤ (read (n.text ++ rest)).text.length := by
  obtain ⟨whole, fraction, scale⟩ := n
  have hwhole : ∀ c ∈ whole, c.isDigit := hn.whole
  have hscale : ∀ s ∈ scale, s.WellFormed := hn.scale
  have hhead {s : Scale} (hs : s ∈ scale) :
      ∀ c ∈ (s.text ++ rest).head?, c.isDigit = false ∧ c ≠ '.' := by
    rintro _ ⟨⟩
    obtain hm | hm := (hscale s hs).mark <;> rw [hm] <;> decide
  rw [length_text, length_text]
  cases fraction with
  | none =>
      cases scale with
      | none =>
          have hle := (prefix_takeWhile hwhole rest).length_le
          simp only [text, read, Option.elim_none, List.append_nil, List.length_nil, Nat.add_zero]
          omega
      | some s =>
          obtain ⟨s', hs', hle⟩ := Scale.length_text_le (hscale s rfl) rest
          have hread := read_whole_append hwhole (hhead rfl)
          simp only [text, Option.elim_none, Option.elim_some, List.append_nil,
            List.append_assoc, hread, hs']
          omega
  | some digits =>
      have hdigits : ∀ c ∈ digits, c.isDigit := hn.fraction digits rfl
      cases scale with
      | none =>
          have hread := read_point_append hwhole (digits ++ rest)
          have hle := (prefix_takeWhile hdigits rest).length_le
          simp only [text, Option.elim_none, Option.elim_some, List.append_nil,
            List.append_assoc, List.cons_append, hread, List.length_nil]
          omega
      | some s =>
          obtain ⟨s', hs', hle⟩ := Scale.length_text_le (hscale s rfl) rest
          have hread := read_point_append hwhole (digits ++ (s.text ++ rest))
          have htake := takeWhile_isDigit_append hdigits fun c hc => (hhead rfl c hc).1
          rw [htake, List.drop_left, hs'] at hread
          simp only [text, Option.elim_some, List.append_assoc, List.cons_append, hread]
          omega

/-- What a numeral is read from goes on with an exponent behind the mantissa exactly if the
numeral has one. -/
theorem isSome_scale_read_iff (cs : List Char) :
    (read cs).scale.isSome ↔ Scale.Begins (cs.drop (read cs).mantissa.text.length) := by
  have hlength : (read cs).mantissa.text.length =
      (read cs).whole.length + (read cs).fraction.elim 0 (·.length + 1) := by
    simp [length_text, mantissa]
  rw [hlength]
  exact Scale.isSome_read?_iff

theorem hasDigits_read (h : starts cs) : (read cs).HasDigits := by
  unfold starts at h
  split at h
  · rename_i c rest
    have hread : read ([] ++ '.' :: c :: rest) = _ := read_point_append (by simp) (c :: rest)
    exact .inr ⟨_, congrArg Numeral.fraction hread, by simp [h]⟩
  · rename_i c rest hne
    exact .inl (by simp [read, h])
  · cases h

theorem starts_text_append (hn : n.WellFormed) (hd : n.HasDigits) (rest : List Char) :
    starts (n.text ++ rest) := by
  obtain ⟨whole, fraction, scale⟩ := n
  cases whole with
  | cons c whole =>
      have hc : c.isDigit := hn.whole c List.mem_cons_self
      have hpoint : c ≠ '.' := Token.ne_point_of_isDigit hc
      simp [text, Token.starts_cons hpoint, hc]
  | nil =>
      obtain hnil | ⟨digits, hf, hne⟩ := hd
      · exact absurd rfl hnil
      · obtain ⟨c, digits, rfl⟩ := List.exists_cons_of_ne_nil hne
        cases hf
        have hc : c.isDigit := hn.fraction _ rfl c List.mem_cons_self
        simp [text, starts, hc]

end Numeral

namespace Token

/-- The texts of tokens. -/
inductive IsLexeme : List Char → Prop
  | numeral {n : Numeral} : n.WellFormed → n.HasDigits → IsLexeme n.text
  | name {cs} : IsName cs → IsLexeme cs
  | symbol {c kind} : Kind.ofChar? c = some kind → IsLexeme [c]

/-- The text begins with a token, and with no longer one. -/
structure Longest (slice text : List Char) : Prop where
  lexeme : IsLexeme slice
  head : slice <+: text
  length_le : ∀ other, IsLexeme other → other <+: text → other.length ≤ slice.length

/-- A token of this kind takes the slice from the head of the text. -/
def Kind.Takes (slice text : List Char) : Kind → Prop
  | .number value => ∃ n : Numeral, n.WellFormed ∧ n.HasDigits ∧ slice = n.text ∧
      (n.scale.isSome ↔ Numeral.Scale.Begins (text.drop n.mantissa.text.length)) ∧
      value = n.value.toBinary64 ∧ value.isFinite ∧ value.isNegative = false
  | .identifier name => IsName slice ∧ name.toList = slice
  | .stop => False
  | kind => ∃ c, slice = [c] ∧ Kind.ofChar? c = some kind

variable {c : Char} {rest slice text other : List Char} {kind : Kind} {more : Nat}

/-- What sort of token a text begins with is seen on its first two characters. -/
theorem IsLexeme.sort (h : IsLexeme other) (hp : other <+: c :: rest) :
    (Numeral.starts (c :: rest) ∧ ∃ n : Numeral, n.WellFormed ∧ other = n.text) ∨
    (Numeral.starts (c :: rest) = false ∧ startsIdentifier c ∧
      ∃ tail, other = c :: tail ∧ ∀ d ∈ tail, continuesIdentifier d) ∨
    other.length = 1 := by
  cases h with
  | @numeral n hn hd =>
      obtain ⟨behind, hb⟩ := hp
      exact .inl ⟨hb ▸ Numeral.starts_text_append hn hd behind, n, hn, rfl⟩
  | name hname =>
      obtain ⟨d, tail, rfl, -, hdigit, hs, htail⟩ := hname
      obtain ⟨rfl, -⟩ := List.cons_prefix_cons.1 hp
      refine .inr (.inl ⟨?_, hs, tail, rfl, List.all_eq_true.1 htail⟩)
      rw [starts_cons (ne_point_of_startsIdentifier hs), hdigit]
  | symbol hk => exact .inr (.inr rfl)

theorem IsLexeme.ne_nil (h : IsLexeme other) : other ≠ [] := by
  cases h with
  | @numeral n hn hd =>
      intro he
      have hstarts := Numeral.starts_text_append hn hd []
      rw [he] at hstarts
      cases hstarts
  | name hname =>
      obtain ⟨d, tail, rfl, -⟩ := hname
      exact List.cons_ne_nil d tail
  | symbol hk => exact List.cons_ne_nil _ _

/-- No character of a token is a blank. -/
theorem IsLexeme.not_isBlank (h : IsLexeme other) : ∀ d ∈ other, Text.isBlank d = false := by
  cases h with
  | numeral hn hd => exact fun d hd => isBlank_of_isDigit_or_mem (hn.isDigit_or_mem d hd)
  | name hname =>
      obtain ⟨d, tail, rfl, hd, -, -, htail⟩ := hname
      exact List.forall_mem_cons.2 ⟨hd, fun d hd =>
        isBlank_of_continuesIdentifier (List.all_eq_true.1 htail d hd)⟩
  | symbol hk => simpa using (lexeme_of_ofChar hk []).1

/-- A numeral takes its own characters from the text, the first of which is `c`. -/
theorem cons_take_text_read (h : Numeral.starts (c :: rest)) :
    c :: rest.take ((Numeral.read (c :: rest)).text.length - 1) =
      (Numeral.read (c :: rest)).text := by
  have hne := (IsLexeme.numeral (Numeral.read_wellFormed _) (Numeral.hasDigits_read h)).ne_nil
  have htake := List.prefix_iff_eq_take.1 (Numeral.prefix_text_read (c :: rest))
  obtain ⟨k, hk⟩ := Nat.exists_eq_succ_of_ne_zero (mt List.length_eq_zero_iff.1 hne)
  rw [hk, Nat.succ_eq_add_one, List.take_succ_cons] at htake
  rw [hk, Nat.succ_eq_add_one, Nat.add_sub_cancel, ← htake]

theorem longest_numeral (h : Numeral.starts (c :: rest)) :
    Longest (Numeral.read (c :: rest)).text (c :: rest) where
  lexeme := .numeral (Numeral.read_wellFormed _) (Numeral.hasDigits_read h)
  head := Numeral.prefix_text_read _
  length_le other ho hp := by
    obtain ⟨-, n, hn, rfl⟩ | ⟨hs, -⟩ | hone := ho.sort hp
    · obtain ⟨behind, hb⟩ := hp
      exact hb ▸ Numeral.length_text_le hn behind
    · rw [h] at hs
      cases hs
    · rw [hone]
      exact List.length_pos_iff.2
        (IsLexeme.numeral (Numeral.read_wellFormed _) (Numeral.hasDigits_read h)).ne_nil

theorem longest_name (hs : Numeral.starts (c :: rest) = false)
    (hname : IsName (c :: rest.takeWhile continuesIdentifier)) :
    Longest (c :: rest.takeWhile continuesIdentifier) (c :: rest) where
  lexeme := .name hname
  head := List.cons_prefix_cons.2 ⟨rfl, List.takeWhile_prefix _⟩
  length_le other ho hp := by
    obtain ⟨hn, -⟩ | ⟨-, -, tail, rfl, htail⟩ | hone := ho.sort hp
    · rw [hs] at hn
      cases hn
    · obtain ⟨behind, rfl⟩ := (List.cons_prefix_cons.1 hp).2
      exact Nat.succ_le_succ (Numeral.prefix_takeWhile htail behind).length_le
    · rw [hone]
      exact Nat.le_add_left 1 _

theorem longest_symbol (hs : Numeral.starts (c :: rest) = false)
    (hi : startsIdentifier c = false) (hk : Kind.ofChar? c = some kind) :
    Longest [c] (c :: rest) where
  lexeme := .symbol hk
  head := List.cons_prefix_cons.2 ⟨rfl, List.nil_prefix⟩
  length_le other ho hp := by
    obtain ⟨hn, -⟩ | ⟨-, hi', -⟩ | hone := ho.sort hp
    · rw [hs] at hn
      cases hn
    · rw [hi] at hi'
      cases hi'
    · exact Nat.le_of_eq hone

/-- What the lexer takes at a character that is no blank is the longest token there. -/
theorem longest_of_lexeme (hc : Text.isBlank c = false) (h : lexeme c rest = .ok (kind, more)) :
    Longest (c :: rest.take more) (c :: rest) ∧ kind.Takes (c :: rest.take more) (c :: rest) := by
  have hlexical := lexeme_lexical hc h
  unfold lexeme at h
  split at h
  · rename_i hs
    dsimp only at h
    split at h
    · cases h
    · rename_i hbits
      simp only [Except.ok.injEq, Prod.mk.injEq] at h
      obtain ⟨rfl, rfl⟩ := h
      rw [cons_take_text_read hs]
      exact ⟨longest_numeral hs, _, Numeral.read_wellFormed _, Numeral.hasDigits_read hs, rfl,
        Numeral.isSome_scale_read_iff _, rfl, (Decimal.isFinite_toBinary64 _).2 hbits,
        Decimal.isNegative_toBinary64 _⟩
  · rename_i hs
    rw [Bool.not_eq_true] at hs
    split at h
    · simp only [Except.ok.injEq, Prod.mk.injEq] at h
      obtain ⟨rfl, rfl⟩ := h
      have hname : IsName (c :: rest.takeWhile continuesIdentifier) := by
        rw [← String.toList_ofList (l := c :: _)]
        exact hlexical
      rw [← List.prefix_iff_eq_take.1 (List.takeWhile_prefix _)]
      exact ⟨longest_name hs hname, hname, String.toList_ofList⟩
    · rename_i hi
      split at h
      · rename_i kind' hk
        simp only [Except.ok.injEq, Prod.mk.injEq] at h
        obtain ⟨rfl, rfl⟩ := h
        refine ⟨longest_symbol hs (by simpa using hi) hk, ?_⟩
        unfold Kind.ofChar? at hk
        split at hk <;> simp only [reduceCtorEq, Option.some.injEq] at hk <;> subst hk <;>
          exact ⟨_, rfl, rfl⟩
      · cases h

end Token
end Reckon
