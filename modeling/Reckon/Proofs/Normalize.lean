import Mathlib.Data.List.Chain
import Reckon.Normalize
import Reckon.Proofs.Text.Replace

/-!
Texts in which there is nothing to normalise but fractions, roots and the blanks around
them. What normalising makes of any other text is not described here.
-/

namespace Reckon.Normalize

/-- The characters that are replaced, or dropped at an end of the text. -/
def marks : List Char := ['$', '?', '=', '×', '·', '÷', '−', '–', 'π', '√']

/-- The character is kept, whatever stands around it. -/
def isOrdinary (c : Char) : Bool := !marks.contains c && c != '*' && c != '\\'

theorem isOrdinary_iff {c : Char} : isOrdinary c ↔ c ∉ marks ∧ c ≠ '*' ∧ c ≠ '\\' := by
  simp [isOrdinary, and_assoc]

/-- A kind of characters that has none of the others is ordinary. -/
theorem isOrdinary_of {p : Char → Bool} {c : Char}
    (h : ('*' :: '\\' :: marks).all fun d => !p d) (hc : p c) : isOrdinary c := by
  have hne (d : Char) (hd : d ∈ '*' :: '\\' :: marks) : c ≠ d := by
    rintro rfl
    have hp := List.all_eq_true.1 h c hd
    rw [hc] at hp
    cases hp
  refine isOrdinary_iff.2 ⟨fun hm => ?_, hne _ (by simp), hne _ (by simp)⟩
  exact hne c (by simp [hm]) rfl

/-- The characters may follow each other: two stars are a power, and a command other than
a fraction or a root is replaced. -/
def Follows (c d : Char) : Prop := (c = '*' → d ≠ '*') ∧ (c = '\\' → d = 'f' ∨ d = 's')

instance : DecidableRel Follows := fun _ _ => inferInstanceAs (Decidable (_ ∧ _))

/-- There is nothing to replace in the text, nor in it and such a text next to it. -/
structure Unmarked (cs : List Char) : Prop where
  marks : ∀ c ∈ cs, c ∉ marks
  chain : cs.IsChain Follows
  head : ∀ c ∈ cs.head?, c ≠ '*'
  last : ∀ c ∈ cs.getLast?, c ≠ '*' ∧ c ≠ '\\'

namespace Unmarked

variable {cs ds : List Char}

theorem of_all (h : cs.all isOrdinary) : Unmarked cs := by
  have hall (c : Char) (hc : c ∈ cs) := isOrdinary_iff.1 (List.all_eq_true.1 h c hc)
  refine ⟨fun c hc => (hall c hc).1, ?_, fun c hc => (hall c (List.mem_of_head? hc)).2.1,
    fun c hc => (hall c (List.mem_of_getLast? hc)).2⟩
  clear h
  induction cs with
  | nil => exact .nil
  | cons c cs ih =>
      obtain ⟨-, hstar, hslash⟩ := hall c List.mem_cons_self
      refine List.isChain_cons.2 ⟨fun d _ => ?_, ih fun d hd => hall d (List.mem_cons_of_mem _ hd)⟩
      exact ⟨fun he => absurd he hstar, fun he => absurd he hslash⟩

/-- A backslash in front of the name of a fraction or a root. -/
theorem command {c : Char} (hc : c = 'f' ∨ c = 's') (h : (c :: cs).all isOrdinary) :
    Unmarked ('\\' :: c :: cs) where
  marks := List.forall_mem_cons.2 ⟨by decide, (of_all h).marks⟩
  chain := by
    refine List.isChain_cons.2 ⟨?_, (of_all h).chain⟩
    rintro _ ⟨⟩
    exact ⟨fun he => absurd he (by decide), fun _ => hc⟩
  head := by
    rintro _ ⟨⟩
    decide
  last d hd := (of_all h).last d (by simpa using hd)

theorem append (h : Unmarked cs) (h' : Unmarked ds) : Unmarked (cs ++ ds) where
  marks := List.forall_mem_append.2 ⟨h.marks, h'.marks⟩
  chain := by
    refine List.isChain_append.2 ⟨h.chain, h'.chain, fun c hc d _ => ?_⟩
    exact ⟨fun he => absurd he (h.last c hc).1, fun he => absurd he (h.last c hc).2⟩
  head c hc := by
    cases cs with
    | nil => exact h'.head c hc
    | cons d cs => exact h.head c hc
  last c hc := by
    rw [List.getLast?_append] at hc
    cases hd : ds.getLast? with
    | none => exact h.last c (by simpa [hd] using hc)
    | some d => exact h'.last c (by simpa [hd] using hc)

/-- A star between two texts. -/
theorem star (h : Unmarked cs) (hcs : cs ≠ []) (h' : Unmarked ds) (hds : ds ≠ []) :
    Unmarked (cs ++ '*' :: ds) where
  marks := by
    refine List.forall_mem_append.2 ⟨h.marks, List.forall_mem_cons.2 ⟨by decide, h'.marks⟩⟩
  chain := by
    have hright : ('*' :: ds).IsChain Follows :=
      List.isChain_cons.2 ⟨fun d hd => ⟨fun _ => h'.head d hd, fun he => absurd he (by decide)⟩,
      h'.chain⟩
    refine List.isChain_append.2 ⟨h.chain, hright, fun c hc d _ => ?_⟩
    exact ⟨fun he => absurd he (h.last c hc).1, fun he => absurd he (h.last c hc).2⟩
  head c hc := by
    obtain ⟨d, cs, rfl⟩ := List.exists_cons_of_ne_nil hcs
    exact h.head c hc
  last c hc := by
    obtain ⟨d, ds, rfl⟩ := List.exists_cons_of_ne_nil hds
    exact h'.last c (by simpa using hc)

theorem not_infix_of_mem {source : String} (h : Unmarked cs) {c : Char} (hc : c ∈ source.toList)
    (hm : c ∈ Normalize.marks) : ¬ source.toList <:+: cs :=
  fun hi => h.marks c (hi.subset hc) hm

theorem not_infix_of_chain {source : String} (h : Unmarked cs)
    (hs : ¬ source.toList.IsChain Follows) : ¬ source.toList <:+: cs :=
  fun hi => hs <| List.IsChain.infix h.chain hi

theorem replaceSymbols (h : Unmarked cs) : replaceSymbols cs = cs := by
  have hall : ∀ symbol ∈ symbols, ¬ symbol.1.toList.IsChain Follows ∨
      symbol.1.toList.any Normalize.marks.contains := by decide
  have hsymbol (symbol : String × String) (hs : symbol ∈ symbols) :
      Text.replaceAll (Text.literal symbol.1 symbol.2) cs = cs := by
    refine Text.replaceAll_literal_of_not_infix ?_
    obtain hchain | hmark := hall symbol hs
    · exact h.not_infix_of_chain hchain
    · obtain ⟨c, hc, hm⟩ := List.any_eq_true.1 hmark
      exact h.not_infix_of_mem hc (List.contains_iff_mem.1 hm)
  refine List.foldlRecOn symbols _ (motive := (· = cs)) rfl fun _ he symbol hs => ?_
  rw [he]
  exact hsymbol symbol hs

theorem strip {gap gap' : List Char} (h : Unmarked cs) (hs : Text.Solid cs)
    (hp : afterPrompt? cs = none) (hg : ∀ c ∈ gap, Text.isBlank c)
    (hg' : ∀ c ∈ gap', Text.isBlank c) : strip (gap ++ (cs ++ gap')) = cs := by
  have hnot (c : Char) (hc : c ∈ Normalize.marks) : ∀ d ∈ cs, (d == c) = false := by
    intro d hd
    refine beq_false_of_ne ?_
    rintro rfl
    exact h.marks d hd hc
  have hdollars : dropDollars cs = cs := by
    rw [dropDollars, Text.dropWhile_of_head fun d hd =>
        hnot '$' (by decide) d (List.mem_of_head? hd),
      Text.dropTailWhile_of_getLast fun d hd => hnot '$' (by decide) d (List.mem_of_getLast? hd)]
  have hquestion : Text.dropTailWhile (· == '?') cs = cs :=
    Text.dropTailWhile_of_getLast fun d hd => hnot '?' (by decide) d (List.mem_of_getLast? hd)
  have hequals : dropEquals cs = cs := by
    rw [dropEquals, if_neg]
    intro he
    exact h.marks '=' (List.mem_of_getLast? he) (by decide)
  have hprompt : dropPrompt cs = cs := by
    rw [dropPrompt, hp]
  rw [Normalize.strip, hs.trim hg hg', hdollars, hs.trim_self, hprompt, hs.trim_self, hquestion,
    hs.trimRight, hequals]

end Unmarked

end Reckon.Normalize
