import Reckon.Proofs.Latex.Reading
import Reckon.Proofs.Normalize

/-!
The texts of written expressions, as they stand and expanded: where blanks may be, that
normalising finds nothing to replace in them but fractions and roots, and which tokens
the expanded text is cut into.
-/

namespace Reckon.Latex
open Markup Token Normalize

theorem isOrdinary_of_continuesIdentifier {c : Char} (h : continuesIdentifier c) (hpi : c ≠ 'π') :
    isOrdinary c :=
  isOrdinary_of (p := fun d => continuesIdentifier d && d != 'π') (by decide +kernel)
    (by simp [h, hpi])

theorem isOrdinary_of_isBlank {c : Char} (h : Text.isBlank c) : isOrdinary c :=
  isOrdinary_of (by decide) h

theorem continuesIdentifier_of_mem_name {cs : List Char} (h : IsName cs) :
    ∀ c ∈ cs, continuesIdentifier c := by
  obtain ⟨c, rest, rfl, -, -, hs, hrest⟩ := h
  refine List.forall_mem_cons.2 ⟨?_, List.all_eq_true.1 hrest⟩
  simp only [startsIdentifier, Bool.or_eq_true] at hs
  obtain hs | hs := hs <;> simp [continuesIdentifier, Text.isAlphanumeric, hs]

/-- A text without blanks in which there is nothing to replace. -/
def IsPlainWord (cs : List Char) : Prop :=
  cs ≠ [] ∧ cs.all fun c => isOrdinary c && !Text.isBlank c

theorem IsPlainWord.unmarked {cs : List Char} (h : IsPlainWord cs) : Unmarked cs :=
  .of_all (by simp_all [IsPlainWord])

theorem IsPlainWord.solid {cs : List Char} (h : IsPlainWord cs) : Text.Solid cs :=
  .of_all h.1 (by simp_all [IsPlainWord])

theorem isPlainWord_numeral {cs : List Char} {value : Binary64} (h : Numeral.Denotes cs value) :
    IsPlainWord cs := by
  refine ⟨?_, List.all_eq_true.2 fun c hc => ?_⟩
  · rintro rfl
    exact absurd h.1 (by decide)
  · obtain hd | hm := h.isDigit_or_mem c hc
    · have hord := isOrdinary_of (p := Char.isDigit) (by decide) hd
      simp [hord, isBlank_of_isDigit hd]
    · have hall : ['.', 'e', 'E', '+', '-'].all fun d => isOrdinary d && !Text.isBlank d := by
        decide
      exact List.all_eq_true.1 hall c hm

theorem isPlainWord_name {cs : List Char} (h : IsName cs) (hpi : 'π' ∉ cs) : IsPlainWord cs := by
  refine ⟨?_, List.all_eq_true.2 fun c hc => ?_⟩
  · rintro rfl
    obtain ⟨_, _, h, -⟩ := h
    cases h
  · have hcont := continuesIdentifier_of_mem_name h c hc
    have hne : c ≠ 'π' := by
      rintro rfl
      exact hpi hc
    simp [isOrdinary_of_continuesIdentifier hcont hne, isBlank_of_continuesIdentifier hcont]

theorem isBlank_unattach (gap : List Blank) : ∀ c ∈ gap.unattach, Text.isBlank c :=
  fun _ hc => (List.mem_unattach.1 hc).1

@[simp] theorem source_sign (op : Operator) (gap gap' : List Blank) :
    (sign op gap gap').source = gap.unattach ++ (op.symbol.toList ++ gap'.unattach) := by
  simp [sign, source_word]

@[simp] theorem plain_sign (op : Operator) (gap gap' : List Blank) :
    (sign op gap gap').plain = gap.unattach ++ (op.symbol.toList ++ gap'.unattach) := by
  simp [sign, plain_word]

variable {level : Level} {t : Term} {m : Markup}

/-- Only an inner text has blanks around it, expanded or not. -/
theorem Written.solid (h : Written level t m) (hl : level ≠ .inner) :
    Text.Solid m.source ∧ Text.Solid m.plain := by
  induction h with
  | inner => exact absurd rfl hl
  | ofProduct _ ih | ofUnary _ ih | ofPower _ ih | ofPrimary _ ih => exact ih (by decide)
  | sum gap gap' _ _ _ ihl ihr | product gap gap' _ _ _ ihl ihr | power gap gap' _ _ ihl ihr =>
      obtain ⟨hls, hlp⟩ := ihl (by decide)
      obtain ⟨hrs, hrp⟩ := ihr (by decide)
      simp only [source_append, plain_append]
      exact ⟨hls.append hrs _, hlp.append hrp _⟩
  | neg gap _ ih =>
      obtain ⟨hs, hp⟩ := ih (by decide)
      have hminus : Text.Solid "-".toList := .of_all (by decide) (by decide)
      simp only [source_append, plain_append, source_word, plain_word]
      exact ⟨hminus.append hs _, hminus.append hp _⟩
  | number hv =>
      simpa using (isPlainWord_numeral hv).solid
  | var hname hn _ hpi =>
      simpa [hname] using (isPlainWord_name hn hpi).solid
  | group =>
      exact ⟨⟨⟨'(', rfl, by decide⟩, ')', by simp [source_word, List.getLast?_cons], by decide⟩,
        ⟨'(', rfl, by decide⟩, ')', by simp [plain_word, List.getLast?_cons], by decide⟩
  | frac =>
      exact ⟨⟨⟨'\\', rfl, by decide⟩, closeBrace, by simp [source, List.getLast?_cons], by decide⟩,
        ⟨'(', rfl, by decide⟩, ')', by simp [plain, List.getLast?_cons], by decide⟩
  | root =>
      exact ⟨⟨⟨'\\', rfl, by decide⟩, closeBrace, by simp [source, List.getLast?_cons], by decide⟩,
        ⟨'s', rfl, by decide⟩, ')', by simp [plain, List.getLast?_cons], by decide⟩

theorem unmarked_blanks (gap : List Blank) : Unmarked gap.unattach :=
  .of_all (List.all_eq_true.2 fun _ hc => isOrdinary_of_isBlank (isBlank_unattach gap _ hc))

theorem unmarked_sign {op : Operator} (hop : op ≠ .mul) (gap gap' : List Blank) :
    Unmarked (sign op gap gap').source := by
  have hsymbol : Unmarked op.symbol.toList :=
    .of_all (by cases op <;> first | decide | contradiction)
  rw [source_sign]
  exact (unmarked_blanks gap).append (hsymbol.append (unmarked_blanks gap'))

/-- A group of a command is unmarked, and so is what follows it. -/
theorem unmarked_group {cs ds : List Char} (gap : List Blank) (h : Unmarked cs) (h' : Unmarked ds) :
    Unmarked (gap.unattach ++ openBrace :: (cs ++ closeBrace :: ds)) := by
  have hopen : Unmarked [openBrace] := .of_all (by decide)
  have hclose : Unmarked [closeBrace] := .of_all (by decide)
  exact (unmarked_blanks gap).append (hopen.append (h.append (hclose.append h')))

/-- Normalising finds nothing to replace in a written text. -/
theorem Written.unmarked (h : Written level t m) : Unmarked m.source := by
  have hnil : Unmarked [] := .of_all rfl
  induction h with
  | inner gap gap' _ ih =>
      simp only [source_append, source_ofBlanks]
      exact (unmarked_blanks gap).append (ih.append (unmarked_blanks gap'))
  | ofProduct _ ih | ofUnary _ ih | ofPower _ ih | ofPrimary _ ih => exact ih
  | sum gap gap' hop _ _ ihl ihr =>
      rw [source_append, source_append]
      exact ihl.append ((unmarked_sign (by obtain rfl | rfl := hop <;> decide) gap gap').append ihr)
  | @product op l r m m' gap gap' hop hl hr ihl ihr =>
      rw [source_append, source_append]
      obtain rfl | rfl := hop
      · have hleft := (hl.solid (by decide)).1.ne_nil
        have hright := (hr.solid (by decide)).1.ne_nil
        have hstar := (ihl.append (unmarked_blanks gap)).star (by simp [hleft])
          ((unmarked_blanks gap').append ihr) (by simp [hright])
        simpa [Operator.symbol] using hstar
      · exact ihl.append ((unmarked_sign (by decide) gap gap').append ihr)
  | power gap gap' _ _ ihl ihr =>
      rw [source_append, source_append]
      exact ihl.append ((unmarked_sign (by decide) gap gap').append ihr)
  | neg gap _ ih =>
      simp only [source_append, source_word, source_ofBlanks]
      exact Unmarked.append (.of_all (by decide)) ((unmarked_blanks gap).append ih)
  | number hv =>
      rw [source_ofLetters]
      exact (isPlainWord_numeral hv).unmarked
  | var hname hn _ hpi =>
      rw [source_ofLetters, hname]
      exact (isPlainWord_name hn hpi).unmarked
  | group _ ih =>
      simp only [source_append, source_word]
      exact Unmarked.append (.of_all (by decide)) (ih.append (.of_all (by decide)))
  | frac gap gap' _ _ iha ihb =>
      have hname : Unmarked ['\\', 'f', 'r', 'a', 'c'] := .command (by decide) (by decide)
      exact hname.append (unmarked_group gap iha (unmarked_group gap' ihb hnil))
  | root gap _ ih =>
      have hname : Unmarked ['\\', 's', 'q', 'r', 't'] := .command (by decide) (by decide)
      exact hname.append (unmarked_group gap ih hnil)

theorem symbol_eq (op : Operator) : ∃ c, op.symbol.toList = [c] ∧
    Kind.ofChar? c = some op.kind ∧ separates c := by
  cases op <;> exact ⟨_, rfl, rfl, by decide⟩

/-- Parentheses around a text, and what they stand for. -/
theorem spells_parens {cs : List Char} {kinds : List Kind} (h : Spells cs kinds) :
    Spells ('(' :: (cs ++ [')'])) (.openParen :: (kinds ++ [.closeParen])) :=
  .symbol rfl (h.append (by decide) (.symbol rfl .nil))

theorem Written.spells (h : Written level t m) : Spells m.plain t.kinds := by
  induction h with
  | inner gap gap' _ ih =>
      simp only [plain_append, plain_ofBlanks]
      exact (ih.trailing (isBlank_unattach gap')).gap (isBlank_unattach gap)
  | ofProduct _ ih | ofUnary _ ih | ofPower _ ih | ofPrimary _ ih => exact ih
  | @sum op l r m m' gap gap' _ _ _ ihl ihr | @product op l r m m' gap gap' _ _ _ ihl ihr =>
      obtain ⟨c, hc, hkind, hs⟩ := symbol_eq op
      have hjoined := ihl.joined (isBlank_unattach gap) hkind hs (isBlank_unattach gap') ihr
      simpa [Term.kinds, hc] using hjoined
  | power gap gap' _ _ ihl ihr =>
      have hjoined := ihl.joined (isBlank_unattach gap) (c := '^') rfl (by decide)
        (isBlank_unattach gap') ihr
      simpa [Term.kinds, Operator.symbol, Operator.kind] using hjoined
  | neg gap _ ih =>
      simp only [plain_append, plain_word, plain_ofBlanks]
      have hoperand := ih.gap (isBlank_unattach gap)
      exact .symbol (c := '-') rfl hoperand
  | number hv =>
      rw [plain_ofLetters]
      exact spells_numeral hv
  | @var letters name hname hn hf hpi =>
      rw [plain_ofLetters, hname]
      exact spells_identifier hn
  | group _ ih =>
      simp only [plain_append, plain_word]
      exact spells_parens ih
  | frac gap gap' _ _ iha ihb =>
      have hquotient := (spells_parens iha).append (by decide)
        (.symbol (show Kind.ofChar? '/' = some .slash from rfl) (spells_parens ihb))
      simpa [plain, Term.kinds] using hquotient
  | root gap _ ih =>
      have hname : Spells "sqrt".toList [.identifier "sqrt"] :=
        spells_identifier ⟨'s', "qrt".toList, rfl, by decide, by decide, by decide, by decide⟩
      have hcall := hname.append (by decide) (spells_parens ih)
      simpa [plain, Term.kinds] using hcall

end Reckon.Latex
