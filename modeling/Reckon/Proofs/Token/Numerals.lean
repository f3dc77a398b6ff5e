import Reckon.Proofs.Token.Spelling

/-!
Numerals as they are written, whatever their form, and blanks between tokens: a numeral
that is read to its end is cut as one number, and blanks in front of a token change
nothing. Which value a numeral has is not looked at.
-/

namespace Reckon.Numeral

/-- The parts of an exponent as reading leaves them. -/
structure Scale.WellFormed (s : Scale) : Prop where
  mark : s.mark = 'e' ∨ s.mark = 'E'
  sign : s.sign = [] ∨ s.sign = ['+'] ∨ s.sign = ['-']
  nonempty : s.digits ≠ []
  digits : ∀ c ∈ s.digits, c.isDigit

/-- The parts of a numeral as reading leaves them. -/
structure WellFormed (n : Numeral) : Prop where
  whole : ∀ c ∈ n.whole, c.isDigit
  fraction : ∀ digits ∈ n.fraction, ∀ c ∈ digits, c.isDigit
  scale : ∀ s ∈ n.scale, s.WellFormed

theorem isDigit_of_mem_takeWhile {cs : List Char} :
    ∀ c ∈ cs.takeWhile Char.isDigit, c.isDigit :=
  List.all_eq_true.1 List.all_takeWhile

theorem Scale.wellFormed_of_read? {cs : List Char} {s : Scale} (h : read? cs = some s) :
    s.WellFormed := by
  unfold read? at h
  split at h
  · cases h
  · rename_i mark rest
    split at h
    · rename_i hmark
      dsimp only at h
      -- the sign that is there, then whether a digit follows it
      split at h <;> split at h
      case h_1.isFalse hdigits | h_2.isFalse hdigits | h_3.isFalse hdigits =>
        cases h
        exact ⟨hmark, by simp, hdigits, isDigit_of_mem_takeWhile⟩
      all_goals cases h
    · cases h

theorem read_wellFormed (cs : List Char) : (read cs).WellFormed where
  whole := isDigit_of_mem_takeWhile
  fraction := by
    simp only [read]
    split
    · rintro _ ⟨⟩
      exact isDigit_of_mem_takeWhile
    · rintro _ ⟨⟩
  scale _ hs := Scale.wellFormed_of_read? hs

theorem ne_sign_of_isDigit {c : Char} (h : c.isDigit) : c ≠ '+' ∧ c ≠ '-' := by
  constructor <;> rintro rfl <;> exact absurd h (by decide)

theorem Scale.read?_text {s : Scale} {rest : List Char} (hs : s.WellFormed) (h : Stops rest) :
    read? (s.text ++ rest) = some s := by
  obtain ⟨mark, sign, digits⟩ := s
  obtain ⟨hm, hsign, hne, hd⟩ := hs
  have htake := takeWhile_isDigit_append hd fun c hc => (h c hc).1
  obtain ⟨d, ds, rfl⟩ := List.exists_cons_of_ne_nil hne
  have hdigit : d.isDigit := hd d List.mem_cons_self
  rw [List.cons_append] at htake
  obtain rfl | rfl | rfl := hsign
  · obtain ⟨hplus, hminus⟩ := ne_sign_of_isDigit hdigit
    simp only [text, read?, List.nil_append, List.cons_append, hm, if_true]
    split
    · rename_i heq
      exact absurd (List.cons.inj heq).1 hplus
    · rename_i heq
      exact absurd (List.cons.inj heq).1 hminus
    · simp [htake]
  · simp [text, read?, hm, htake]
  · simp [text, read?, hm, htake]

/-- A numeral is read again from its text, if it does not go on in what follows. -/
theorem read_text_append {n : Numeral} {rest : List Char} (hn : n.WellFormed) (h : Stops rest) :
    read (n.text ++ rest) = n := by
  obtain ⟨whole, fraction, scale⟩ := n
  obtain ⟨hwhole, hfraction, hscale⟩ := hn
  have hback : Scale.read? (scale.elim [] Scale.text ++ rest) = scale := by
    cases scale with
    | none => exact Scale.read?_of_stops h
    | some s => exact Scale.read?_text (hscale s rfl) h
  have hhead : ∀ c ∈ (scale.elim [] Scale.text ++ rest).head?, c.isDigit = false ∧ c ≠ '.' := by
    cases scale with
    | none => exact fun c hc => ⟨(h c hc).1, (h c hc).2.1⟩
    | some s =>
        rintro _ ⟨⟩
        obtain hm | hm := (hscale s rfl).mark <;> rw [hm] <;> decide
  cases fraction with
  | none =>
      have htake := takeWhile_isDigit_append hwhole fun c hc => (hhead c hc).1
      simp only [text, read, Option.elim_none, List.append_nil, List.append_assoc, htake,
        List.drop_left]
      split
      · rename_i heq
        exact absurd rfl (hhead '.' (by rw [heq]; rfl)).2
      · simpa using hback
  | some digits =>
      have htake : (whole ++ '.' :: (digits ++ (scale.elim [] Scale.text ++ rest))).takeWhile
          Char.isDigit = whole := takeWhile_isDigit_append hwhole (by simp)
      have hdigits := takeWhile_isDigit_append (hfraction digits rfl) fun c hc => (hhead c hc).1
      have hdrop : (digits ++ (scale.elim [] Scale.text ++ rest)).drop digits.length =
          scale.elim [] Scale.text ++ rest := List.drop_left
      simp [text, read, htake, hdigits, hdrop, hback]

/-- The text is one numeral, finite and with the given value. -/
def Denotes (cs : List Char) (value : Binary64) : Prop :=
  starts cs ∧ (read cs).text = cs ∧ (read cs).value.bits ≠ Binary64.infinity ∧
    value = (read cs).value.toBinary64

instance (cs : List Char) (value : Binary64) : Decidable (Denotes cs value) :=
  inferInstanceAs (Decidable (_ ∧ _))

variable {cs rest : List Char} {value : Binary64}

/-- The characters that a numeral may have. -/
theorem WellFormed.isDigit_or_mem {n : Numeral} (hn : n.WellFormed) :
    ∀ c ∈ n.text, c.isDigit ∨ c ∈ ['.', 'e', 'E', '+', '-'] := by
  obtain ⟨hwhole, hfraction, hscale⟩ := hn
  intro c hc
  simp only [text, List.mem_append] at hc
  obtain (hc | hc) | hc := hc
  · exact .inl (hwhole c hc)
  · cases hf : n.fraction with
    | none => simp [hf] at hc
    | some digits =>
        simp only [hf, Option.elim_some, List.mem_cons] at hc
        obtain rfl | hc := hc
        · exact .inr (by decide)
        · exact .inl (hfraction digits hf c hc)
  · cases hs : n.scale with
    | none => simp [hs] at hc
    | some s =>
        obtain ⟨hm, hsign, -, hd⟩ := hscale s hs
        simp only [hs, Option.elim_some, Scale.text, List.mem_cons, List.mem_append] at hc
        obtain rfl | hc | hc := hc
        · obtain hm | hm := hm <;> exact .inr (by simp [hm])
        · obtain hsign | hsign | hsign := hsign <;> rw [hsign] at hc <;>
            exact .inr (by revert hc; simp +contextual)
        · exact .inl (hd c hc)

theorem isDigit_or_mem_of_read (cs : List Char) :
    ∀ c ∈ (read cs).text, c.isDigit ∨ c ∈ ['.', 'e', 'E', '+', '-'] :=
  (read_wellFormed cs).isDigit_or_mem

theorem Denotes.isDigit_or_mem (h : Denotes cs value) :
    ∀ c ∈ cs, c.isDigit ∨ c ∈ ['.', 'e', 'E', '+', '-'] := by
  have hread := isDigit_or_mem_of_read cs
  rwa [h.2.1] at hread

theorem starts_append (h : starts cs) : starts (cs ++ rest) := by
  unfold starts at h
  split at h
  · exact h
  · rename_i c cs hne
    have hc : c ≠ '.' := by
      rintro rfl
      exact absurd h (by decide)
    rwa [List.cons_append, Token.starts_cons hc]
  · cases h

end Reckon.Numeral

namespace Reckon.Token

variable {cs : List Char} {kinds : List Kind}

theorem isBlank_of_isDigit_or_mem {c : Char}
    (h : c.isDigit ∨ c ∈ ['.', 'e', 'E', '+', '-']) : Text.isBlank c = false := by
  obtain hd | hm := h
  · exact isBlank_of_isDigit hd
  · have hall : ['.', 'e', 'E', '+', '-'].all fun d => !Text.isBlank d := by decide
    simpa using List.all_eq_true.1 hall c hm

theorem spells_numeral {value : Binary64} (h : Numeral.Denotes cs value) :
    Spells cs [.number value] := by
  obtain ⟨hstart, htext, hbits, rfl⟩ := id h
  cases cs with
  | nil => cases hstart
  | cons c cs =>
      have hblank : Text.isBlank c = false :=
        isBlank_of_isDigit_or_mem (h.isDigit_or_mem c List.mem_cons_self)
      refine spells_of_lexeme hblank fun rest hr => ?_
      have hread : Numeral.read (c :: (cs ++ rest)) = Numeral.read (c :: cs) := by
        have happ := Numeral.read_text_append (Numeral.read_wellFormed (c :: cs)) hr.stops
        rwa [htext] at happ
      have hstart' : Numeral.starts (c :: (cs ++ rest)) := Numeral.starts_append hstart
      simp [lexeme, hstart', hread, htext, hbits]

/-- No name and no numeral goes on in a blank. -/
theorem separates_of_isBlank {c : Char} (h : Text.isBlank c) : separates c := by
  have hall : ∀ range ∈ Text.blankRanges, ∀ n ∈ List.range' range.1 (range.2 + 1 - range.1),
      separates (Char.ofNat n) := by decide +kernel
  obtain ⟨range, hr, hc⟩ := List.any_eq_true.1 h
  simp only [Bool.and_eq_true, decide_eq_true_eq] at hc
  have hn := hall range hr c.toNat (List.mem_range'_1.2 ⟨hc.1, by omega⟩)
  rwa [Char.ofNat_toNat] at hn

theorem isBlank_of_continuesIdentifier {c : Char} (h : continuesIdentifier c) :
    Text.isBlank c = false := by
  refine Bool.eq_false_iff.2 fun hb => ?_
  have hs := separates_of_isBlank hb
  simp [separates, h] at hs

theorem Spells.gap {gap : List Char} (hg : ∀ c ∈ gap, Text.isBlank c) (h : Spells cs kinds) :
    Spells (gap ++ cs) kinds := by
  induction gap with
  | nil => exact h
  | cons c gap ih =>
      obtain ⟨hc, hgap⟩ := List.forall_mem_cons.1 hg
      intro rest hr position found
      obtain ⟨position', new, hn, hs⟩ := ih hgap rest hr (position + 1) found
      refine ⟨position', new, hn, ?_⟩
      simp only [List.cons_append, scan, hc, if_true, hs]

theorem Spells.trailing {gap : List Char} (hg : ∀ c ∈ gap, Text.isBlank c)
    (h : Spells cs kinds) : Spells (cs ++ gap) kinds := by
  cases gap with
  | nil => rwa [List.append_nil]
  | cons c gap =>
      have hblank : Spells (c :: gap) [] := by simpa using Spells.nil.gap hg
      have happ := h.append (separates_of_isBlank (hg c List.mem_cons_self)) hblank
      rwa [List.append_nil] at happ

/-- Two texts around a token of one character that has blanks on both sides. -/
theorem Spells.joined {gap gap' cs' : List Char} {c : Char} {kind : Kind} {kinds' : List Kind}
    (h : Spells cs kinds) (hg : ∀ c ∈ gap, Text.isBlank c) (hc : Kind.ofChar? c = some kind)
    (hs : separates c) (hg' : ∀ c ∈ gap', Text.isBlank c) (h' : Spells cs' kinds') :
    Spells (cs ++ (gap ++ c :: (gap' ++ cs'))) (kinds ++ kind :: kinds') := by
  rw [← List.append_assoc]
  exact (h.trailing hg).append hs (.symbol hc (h'.gap hg'))

end Reckon.Token
