import Reckon.Proofs.Expr.Recognition
import Reckon.Proofs.Latex.Layout
import Reckon.Proofs.Latex.Passes

/-!
What expressions in LaTeX notation are read as. Every one is read, within the bounds on
nesting and height; it is read as what it means exactly where no fraction is an operand
of a product, a quotient, a sign or a power, since the expanded fraction stands there
without parentheses around it.
-/

namespace Reckon.Latex
open Grammar Normalize Markup

variable {t : Term} {m : Markup}

/-- Normalising expands a written text and drops the blanks around it. -/
theorem Written.normalizeChars (h : Written .inner t m) (hdepth : m.depth ≤ maxPasses)
    (hprompt : afterPrompt? (Text.trim m.source) = none) :
    ∃ core, Written .sum t core ∧ normalizeChars m.source = core.plain := by
  cases h with
  | @inner _ core gap gap' h =>
      obtain ⟨hsource, hplain⟩ := h.solid (by decide)
      have hg := isBlank_unattach gap
      have hg' := isBlank_unattach gap'
      simp only [source_append, source_ofBlanks] at hprompt ⊢
      rw [hsource.trim hg hg'] at hprompt
      have hcore : core.depth ≤ maxPasses := by
        simp only [depth_append] at hdepth
        omega
      refine ⟨core, h, ?_⟩
      rw [Normalize.normalizeChars, h.unmarked.strip hsource hprompt hg hg',
        h.unmarked.replaceSymbols, expand_source core hcore, hplain.trim_self]

/-- A written text is read as the tree of its parts. -/
theorem Written.parse (h : Written .inner t m) (hdepth : m.depth ≤ maxPasses)
    (hprompt : afterPrompt? (Text.trim m.source) = none) (hnesting : t.nesting ≤ 255)
    (hheight : t.read.height ≤ 512) :
    ∃ parsed, Expr.parse (normalize (String.ofList m.source)) = .ok parsed ∧
      parsed.expr = t.read := by
  obtain ⟨core, hcore, hnorm⟩ := h.normalizeChars hdepth hprompt
  obtain ⟨tokens, htokens, hkinds⟩ := hcore.spells.ofChars 0
  have hphrase : Derives 255 .sum 0 t.kinds t.read := hcore.phrase (by omega)
  rw [← hkinds] at hphrase
  obtain ⟨parsed, hp, he⟩ := (parseAt_eq_ok_iff htokens).2 ⟨hphrase, hheight⟩
  refine ⟨parsed, ?_, he⟩
  rw [Expr.parse, normalize, String.toList_ofList, String.toList_ofList, hnorm, hp]

section Words

variable {text : String} (hl : text.toList.all isLetter)

theorem written_number {value : Binary64} (h : Numeral.Denotes text.toList value) :
    Written .primary (.number value) (word text hl) :=
  .number (by simpa using h)

theorem written_var (hn : Token.IsName text.toList) (hf : Builtin.ofName? text = none)
    (hpi : 'π' ∉ text.toList) : Written .primary (.var text) (word text hl) :=
  .var (by simp) hn hf hpi

theorem Written.asUnary (h : Written .primary t m) : Written .unary t m :=
  .ofPower (.ofPrimary h)

theorem Written.asInner (h : Written .product t m) (gap gap' : List Blank) :
    Written .inner t (ofBlanks gap ++ (m ++ ofBlanks gap')) :=
  .inner gap gap' (.ofProduct h)

end Words

/-- An expression in LaTeX notation is read, and as what it means if and only if none of
its fractions is multiplied by, divided by, under a sign, or base or exponent of a power
without parentheses around it. -/
theorem parse_eq_denote_iff_settled (h : Written .inner t m) (hdepth : m.depth ≤ 16)
    (hprompt : afterPrompt? (Text.trim m.source) = none) (hnesting : t.nesting ≤ 255)
    (hheight : t.read.height ≤ 512) :
    ∃ parsed, Expr.parse (normalize (String.ofList m.source)) = .ok parsed ∧
      (parsed.expr = t.denote ↔ t.Settled) := by
  obtain ⟨parsed, hp, he⟩ := h.parse hdepth hprompt hnesting hheight
  exact ⟨parsed, hp, he ▸ Term.read_eq_denote_iff⟩

/-- `\frac{1}{x} * 2^(\sqrt {\frac {y} {2.5}})`: a fraction as the left factor, and one
under a root, whose parentheses make it an exponent. -/
theorem parse_eq_denote_iff_settled_root :
    ∃ parsed, Expr.parse (normalize
        "\\frac\x7b1\x7d\x7bx\x7d * 2^(\\sqrt \x7b\\frac \x7by\x7d \x7b2.5\x7d\x7d)") =
        .ok parsed ∧
      parsed.expr = .binary .mul (.binary .div (.number 1) (.var "x"))
        (.binary .pow (.number 2)
          (.call "sqrt" [.binary .div (.var "y") (.number 2.5)])) := by
  let blank : Blank := ⟨' ', by decide⟩
  have hnumber (text : String) (hl : text.toList.all isLetter) (value : Binary64)
      (h : Numeral.Denotes text.toList value) : Written .product (.number value) (word text hl) :=
    .ofUnary (written_number hl h).asUnary
  have hx : Written .primary (.var "x") (word "x" (by decide)) :=
    written_var _ ⟨'x', [], rfl, by decide, by decide, by decide, rfl⟩ (by decide) (by decide)
  have hy : Written .primary (.var "y") (word "y" (by decide)) :=
    written_var _ ⟨'y', [], rfl, by decide, by decide, by decide, rfl⟩ (by decide) (by decide)
  have hleft : Written .primary (.frac (.number 1) (.var "x")) _ :=
    .frac [] [] ((hnumber "1" (by decide) 1 (by decide +kernel)).asInner [] [])
      (Written.asInner (.ofUnary hx.asUnary) [] [])
  have hinner : Written .primary (.frac (.var "y") (.number 2.5)) _ :=
    .frac [blank] [blank] (Written.asInner (.ofUnary hy.asUnary) [] [])
      ((hnumber "2.5" (by decide) 2.5 (by decide +kernel)).asInner [] [])
  have hroot : Written .primary (.root (.frac (.var "y") (.number 2.5))) _ :=
    .root [blank] (Written.asInner (.ofUnary hinner.asUnary) [] [])
  have hgroup : Written .primary (.group (.root (.frac (.var "y") (.number 2.5)))) _ :=
    .group (Written.asInner (.ofUnary hroot.asUnary) [] [])
  have hpower : Written .unary (.binary .pow (.number 2)
      (.group (.root (.frac (.var "y") (.number 2.5))))) _ :=
    .ofPower (.power [] [] (@written_number "2" (by decide) 2 (by decide +kernel))
      hgroup.asUnary)
  have hproduct : Written .inner (.binary .mul (.frac (.number 1) (.var "x")) (.binary .pow
      (.number 2) (.group (.root (.frac (.var "y") (.number 2.5)))))) _ :=
    Written.asInner (.product [blank] [blank] (.inl rfl) (.ofUnary hleft.asUnary) hpower) [] []
  obtain ⟨parsed, hp, he⟩ := parse_eq_denote_iff_settled hproduct (by decide) (by decide)
    (by decide) (by decide)
  exact ⟨parsed, hp, he.2 ⟨rfl, ⟨trivial, trivial⟩, rfl, rfl, trivial, trivial, trivial⟩⟩

/-- A fraction that is divided by is taken apart: eight over two is read as one. -/
theorem parse_ne_denote_of_divisor :
    ∃ t m parsed, Written .inner t m ∧ m.source = "8/\\frac{4}{2}".toList ∧ m.depth = 1 ∧
      afterPrompt? (Text.trim m.source) = none ∧
      t.denote = .binary .div (.number 8) (.binary .div (.number 4) (.number 2)) ∧
      Expr.parse (normalize "8/\\frac{4}{2}") = .ok parsed ∧
      parsed.expr = .binary .div (.binary .div (.number 8) (.number 4)) (.number 2) ∧
      parsed.expr ≠ t.denote := by
  have hdigit (text : String) (hl : text.toList.all isLetter) (value : Binary64)
      (h : Numeral.Denotes text.toList value) : Written .product (.number value) (word text hl) :=
    .ofUnary (written_number hl h).asUnary
  have hfrac : Written .primary (.frac (.number 4) (.number 2)) _ :=
    .frac [] [] ((hdigit "4" (by decide) 4 (by decide +kernel)).asInner [] [])
      ((hdigit "2" (by decide) 2 (by decide +kernel)).asInner [] [])
  have hquotient : Written .inner (.binary .div (.number 8) (.frac (.number 4) (.number 2))) _ :=
    Written.asInner (.product [] [] (.inr rfl) (hdigit "8" (by decide) 8 (by decide +kernel))
      hfrac.asUnary) [] []
  obtain ⟨parsed, hp, he⟩ := hquotient.parse (by decide) (by decide) (by decide) (by decide)
  have he' : parsed.expr = .binary .div (.binary .div (.number 8) (.number 4)) (.number 2) := he
  refine ⟨_, _, parsed, hquotient, by decide, by decide, by decide, rfl, hp, he', ?_⟩
  rw [he']
  intro h
  injection h with _ hleft _
  cases hleft

end Reckon.Latex
