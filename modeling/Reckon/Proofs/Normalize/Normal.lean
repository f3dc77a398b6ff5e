import Mathlib.Data.List.Infix
import Mathlib.Data.List.TakeWhile
import Reckon.Normalize
import Reckon.Proofs.Text.Weight

/-!
The texts that normalising keeps: nothing is left in them that would be dropped at an end
or replaced anywhere. Every stage of normalising keeps a text or makes it lighter, so the
stages cannot undo each other, and a text that comes out as it went in was kept by each.
-/

namespace Reckon.Normalize
open Text (Reduces Lightens Idle weigh)

/-- Symbols that are written with several characters instead weigh more than those. -/
def weight (c : Char) : Nat := if c ∈ ['×', '·', '÷', '−', '–', 'π', '√'] then 5 else 1

theorem weight_pos (c : Char) : 0 < weight c := by
  rw [weight]
  split <;> decide

section Dropping

variable {cs rest : List Char}

theorem sublist_dropTailWhile (p : Char → Bool) (cs : List Char) :
    (Text.dropTailWhile p cs).Sublist cs := by
  have h := (List.dropWhile_sublist (l := cs.reverse) p).reverse
  rwa [List.reverse_reverse] at h

theorem sublist_trim (cs : List Char) : (Text.trim cs).Sublist cs :=
  (sublist_dropTailWhile _ _).trans (List.dropWhile_sublist _)

theorem sublist_dropDollars (cs : List Char) : (dropDollars cs).Sublist cs :=
  (sublist_dropTailWhile _ _).trans (List.dropWhile_sublist _)

theorem sublist_dropEquals (cs : List Char) : (dropEquals cs).Sublist cs := by
  rw [dropEquals]
  split
  · exact (sublist_dropTailWhile _ _).trans (List.dropLast_sublist cs)
  · exact List.Sublist.refl cs

theorem suffix_of_afterWord? {word : List Char} (h : afterWord? word cs = some rest) :
    rest <:+ cs ∧ cs.length = word.length + rest.length := by
  induction word generalizing cs with
  | nil =>
      rw [afterWord?] at h
      cases h
      exact ⟨List.suffix_refl _, (Nat.zero_add _).symm⟩
  | cons p word ih =>
      cases cs with
      | nil => cases h
      | cons c cs =>
          rw [afterWord?] at h
          split at h
          · obtain ⟨hs, hl⟩ := ih h
            refine ⟨hs.trans (List.suffix_cons c cs), ?_⟩
            rw [List.length_cons, List.length_cons]
            omega
          · cases h

theorem suffix_of_afterWords? {first second : String}
    (h : afterWords? first second cs = some rest) :
    rest <:+ cs ∧ first.toList.length + rest.length ≤ cs.length := by
  obtain ⟨behind, hfirst, h⟩ := Option.bind_eq_some_iff.1 h
  obtain ⟨hs, hl⟩ := suffix_of_afterWord? hfirst
  split at h
  · obtain ⟨hs', hl'⟩ := suffix_of_afterWord? h
    have htrim : Text.trimLeft behind <:+ behind := List.dropWhile_suffix _
    have hle := htrim.length_le
    exact ⟨(hs'.trans htrim).trans hs, by omega⟩
  · cases h

/-- A prompt is dropped from the front, and it is not empty. -/
theorem suffix_of_afterPrompt? (h : afterPrompt? cs = some rest) :
    rest <:+ cs ∧ rest.length < cs.length := by
  have hwords : ∀ word ∈ promptWords, 0 < word.toList.length := by decide
  obtain ⟨candidate, hc, hfilter⟩ := List.exists_of_findSome?_eq_some h
  obtain ⟨hcandidate, -⟩ := Option.filter_eq_some_iff.1 hfilter
  cases List.mem_cons.1 hc with
  | inl he =>
      obtain ⟨hs, hl⟩ := suffix_of_afterWords? (he.symm.trans hcandidate)
      have hpos : 0 < "what".toList.length := by decide
      exact ⟨hs, by omega⟩
  | inr hm =>
      obtain ⟨word, hw, he⟩ := List.mem_map.1 hm
      obtain ⟨hs, hl⟩ := suffix_of_afterWord? (he.trans hcandidate)
      have hpos := hwords word hw
      exact ⟨hs, by omega⟩

theorem sublist_dropPrompt (cs : List Char) : (dropPrompt cs).Sublist cs := by
  rw [dropPrompt]
  split
  · rename_i rest h
    exact (List.dropWhile_sublist _).trans (suffix_of_afterPrompt? h).1.sublist
  · exact List.Sublist.refl cs

theorem dropPrompt_eq_self : dropPrompt cs = cs ↔ afterPrompt? cs = none := by
  constructor
  · intro h
    rw [dropPrompt] at h
    split at h
    · rename_i rest hrest
      obtain ⟨-, hlt⟩ := suffix_of_afterPrompt? hrest
      have hle := (List.dropWhile_sublist (l := rest)
        fun c => Text.isBlank c || c == ':').length_le
      rw [h] at hle
      exact absurd hlt (Nat.not_lt.2 hle)
    · assumption
  · intro h
    rw [dropPrompt, h]

theorem dropWhile_eq_self {p : Char → Bool} :
    cs.dropWhile p = cs ↔ ∀ c ∈ cs.head?, p c = false := by
  cases cs with
  | nil => simp
  | cons c cs => simp [List.dropWhile_eq_self_iff]

theorem dropTailWhile_eq_self {p : Char → Bool} :
    Text.dropTailWhile p cs = cs ↔ ∀ c ∈ cs.getLast?, p c = false := by
  rw [Text.dropTailWhile, List.reverse_eq_iff, dropWhile_eq_self, List.head?_reverse]

theorem reduces_dropWhile (p : Char → Bool) : Reduces weight (List.dropWhile p) :=
  Text.reduces_of_sublist weight_pos fun _ => List.dropWhile_sublist p

theorem reduces_dropTailWhile (p : Char → Bool) : Reduces weight (Text.dropTailWhile p) :=
  Text.reduces_of_sublist weight_pos (sublist_dropTailWhile p)

theorem dropDollars_eq_self :
    dropDollars cs = cs ↔ (∀ c ∈ cs.head?, c ≠ '$') ∧ ∀ c ∈ cs.getLast?, c ≠ '$' := by
  rw [dropDollars, (reduces_dropWhile _).comp_eq_self (reduces_dropTailWhile _),
    dropWhile_eq_self, dropTailWhile_eq_self]
  simp only [beq_eq_false_iff_ne]

theorem dropEquals_eq_self : dropEquals cs = cs ↔ ∀ c ∈ cs.getLast?, c ≠ '=' := by
  rw [dropEquals]
  split
  · rename_i h
    refine iff_of_false (fun he => ?_) fun hall => hall '=' h rfl
    have hle := (sublist_dropTailWhile Text.isBlank cs.dropLast).length_le
    have hne : cs ≠ [] := by
      intro hnil
      rw [hnil] at h
      cases h
    rw [Text.trimRight] at he
    rw [he, List.length_dropLast] at hle
    have hpos := List.length_pos_iff.2 hne
    omega
  · rename_i h
    exact iff_of_true rfl fun c hc he => h (he ▸ hc)

end Dropping

section Groups
open Latex

variable {cs body : List Char} {n : Nat}

/-- A group is what is taken for it: blanks, and its body between braces. -/
theorem take_of_group? (h : group? cs = some (body, n)) :
    ∃ gap, cs.take n = gap ++ openBrace :: (body ++ [closeBrace]) := by
  unfold group? at h
  dsimp only at h
  split at h
  · cases h
  · rename_i c rest hdrop
    split at h
    · rename_i hbraces
      obtain ⟨rfl, hclose⟩ := hbraces
      simp only [Option.some.injEq, Prod.mk.injEq] at h
      obtain ⟨hbody, hn⟩ := h
      rw [hbody] at hclose hn
      have hrest := List.prefix_iff_eq_append.1 (List.takeWhile_prefix (l := rest)
        fun d => d != openBrace && d != closeBrace)
      have hsplit := List.prefix_iff_eq_append.1 (List.takeWhile_prefix (l := cs) Text.isBlank)
      rw [hbody] at hrest
      rw [hdrop, ← hrest] at hsplit
      generalize cs.takeWhile Text.isBlank = gap at hsplit hn
      refine ⟨gap, ?_⟩
      cases hafter : rest.drop body.length with
      | nil => rw [hafter] at hclose; cases hclose
      | cons d after =>
          rw [hafter] at hclose hsplit
          cases hclose
          have hlength : (gap ++ openBrace :: (body ++ [closeBrace])).length = n := by
            rw [← hn]
            simp [Nat.add_assoc]
          have hwhole : (gap ++ openBrace :: (body ++ [closeBrace])) ++ after = cs := by
            rw [← hsplit]
            simp
          rw [← hwhole, List.take_left' hlength]
    · cases h

theorem weigh_group? (h : group? cs = some (body, n)) :
    weigh weight body + 2 ≤ weigh weight (cs.take n) := by
  obtain ⟨gap, htake⟩ := take_of_group? h
  have hopen : weight openBrace = 1 := by decide
  have hclose : weight closeBrace = 1 := by decide
  simp only [htake, Text.weigh_append, Text.weigh_cons, Text.weigh_nil, hopen, hclose]
  omega

theorem lightens_fraction : Lightens weight fraction := by
  intro cs replacement length h
  unfold fraction at h
  dsimp only at h
  split at h
  · rename_i hname
    obtain ⟨⟨above, n⟩, habove, h⟩ := Option.bind_eq_some_iff.1 h
    obtain ⟨⟨below, m⟩, hbelow, h⟩ := Option.bind_eq_some_iff.1 h
    cases h
    dsimp only at hbelow
    obtain ⟨behind, rfl⟩ := List.isPrefixOf_iff_prefix.1 hname
    have hwords : weigh weight "(".toList + weigh weight ")/(".toList +
        weigh weight ")".toList = weigh weight "\\frac".toList := by decide
    have ha := weigh_group? habove
    have hb := weigh_group? hbelow
    rw [List.drop_left] at ha
    rw [← List.drop_drop, List.drop_left] at hb
    rw [Nat.add_assoc, List.take_length_add_append, List.take_add]
    simp only [Text.weigh_append] at hwords ⊢
    omega
  · cases h

theorem lightens_root : Lightens weight root := by
  intro cs replacement length h
  unfold root at h
  dsimp only at h
  split at h
  · rename_i hname
    obtain ⟨⟨body, n⟩, hbody, h⟩ := Option.bind_eq_some_iff.1 h
    cases h
    obtain ⟨behind, rfl⟩ := List.isPrefixOf_iff_prefix.1 hname
    have hwords : weigh weight "sqrt(".toList + weigh weight ")".toList =
        weigh weight "\\sqrt".toList + 1 := by decide
    have hb := weigh_group? hbody
    rw [List.drop_left] at hb
    rw [List.take_length_add_append]
    simp only [Text.weigh_append] at hwords ⊢
    omega
  · cases h

theorem reduces_pass : Reduces weight pass :=
  lightens_fraction.reduces.comp lightens_root.reduces

theorem pass_eq_self : pass cs = cs ↔ Idle fraction cs ∧ Idle root cs := by
  rw [Latex.pass, lightens_fraction.reduces.comp_eq_self lightens_root.reduces,
    lightens_fraction.replaceAll_eq_self, lightens_root.replaceAll_eq_self]

theorem reduces_passes (bound : Nat) : Reduces weight (passes bound) := by
  induction bound with
  | zero => exact fun cs => .inl rfl
  | succ bound ih =>
      intro cs
      rw [passes_succ]
      exact reduces_pass.comp ih cs

theorem passes_eq_self (bound : Nat) : passes (bound + 1) cs = cs ↔ pass cs = cs := by
  rw [passes_succ, reduces_pass.comp_eq_self (reduces_passes bound)]
  exact and_iff_left_of_imp fun h => passes_of_fixed h bound

end Groups

section Stages

variable {cs : List Char}

/-- There is nothing in the text that would be dropped at an end or replaced anywhere. -/
structure Normal (cs : List Char) : Prop where
  head : ∀ c ∈ cs.head?, c ≠ '$'
  last : ∀ c ∈ cs.getLast?, c ∉ ['$', '?', '=']
  prompt : afterPrompt? cs = none
  symbols : ∀ symbol ∈ symbols, ¬ symbol.1.toList <:+: cs
  fraction : Idle Latex.fraction cs
  root : Idle Latex.root cs

theorem lightens_symbol {symbol : String × String} (h : symbol ∈ symbols) :
    Lightens weight (Text.literal symbol.1 symbol.2) := by
  have hall : ∀ symbol ∈ symbols,
      weigh weight symbol.2.toList < weigh weight symbol.1.toList := by decide
  exact Text.lightens_literal (hall symbol h)

theorem reduces_replaceAll {symbol : String × String} (h : symbol ∈ symbols) :
    Reduces weight (Text.replaceAll (Text.literal symbol.1 symbol.2)) :=
  (lightens_symbol h).reduces

theorem reduces_replaceSymbols : Reduces weight replaceSymbols :=
  Text.reduces_foldl (fun cs (symbol : String × String) =>
    Text.replaceAll (Text.literal symbol.1 symbol.2) cs) fun _ h => reduces_replaceAll h

theorem replaceSymbols_eq_self :
    replaceSymbols cs = cs ↔ ∀ symbol ∈ symbols, ¬ symbol.1.toList <:+: cs := by
  refine (Text.foldl_eq_self (fun cs (symbol : String × String) =>
    Text.replaceAll (Text.literal symbol.1 symbol.2) cs) fun _ h => reduces_replaceAll h).trans
    (forall₂_congr fun symbol hs => ?_)
  rw [(lightens_symbol hs).replaceAll_eq_self, Text.idle_literal]

/-- The stages of normalising, in order. -/
def stages : List (List Char → List Char) :=
  [Text.trim, dropDollars, Text.trim, dropPrompt, Text.trim, Text.dropTailWhile (· == '?'),
    Text.trimRight, dropEquals, replaceSymbols, Latex.expand, Text.trim]

theorem normalizeChars_eq_foldl (cs : List Char) :
    normalizeChars cs = stages.foldl (fun cs stage => stage cs) cs := by
  simp only [normalizeChars, strip, stages, List.foldl_cons, List.foldl_nil]

theorem reduces_stages : ∀ stage ∈ stages, Reduces weight stage := by
  have hdrop {f : List Char → List Char} (h : ∀ cs, (f cs).Sublist cs) : Reduces weight f :=
    Text.reduces_of_sublist weight_pos h
  have htrim := hdrop sublist_trim
  simp only [stages, List.forall_mem_cons, List.not_mem_nil, false_implies, implies_true, and_true]
  exact ⟨htrim, hdrop sublist_dropDollars, htrim, hdrop sublist_dropPrompt, htrim,
    reduces_dropTailWhile _, reduces_dropTailWhile _, hdrop sublist_dropEquals,
    reduces_replaceSymbols, reduces_passes _, htrim⟩

theorem trim_eq_self : Text.trim cs = cs ↔ Text.trimLeft cs = cs ∧ Text.trimRight cs = cs :=
  (reduces_dropWhile Text.isBlank).comp_eq_self (reduces_dropTailWhile Text.isBlank)

theorem Normal.of_stages (hdollars : dropDollars cs = cs) (hprompt : dropPrompt cs = cs)
    (hquestions : Text.dropTailWhile (· == '?') cs = cs) (hequals : dropEquals cs = cs)
    (hsymbols : replaceSymbols cs = cs) (hexpand : Latex.expand cs = cs) : Normal cs := by
  obtain ⟨hhead, hlast⟩ := dropDollars_eq_self.1 hdollars
  obtain ⟨hfraction, hroot⟩ := pass_eq_self.1 ((passes_eq_self _).1 hexpand)
  refine ⟨hhead, fun c hc => ?_, dropPrompt_eq_self.1 hprompt, replaceSymbols_eq_self.1 hsymbols,
    hfraction, hroot⟩
  have hquestion := dropTailWhile_eq_self.1 hquestions c hc
  rw [beq_eq_false_iff_ne] at hquestion
  simp [hlast c hc, hquestion, dropEquals_eq_self.1 hequals c hc]

/-- Normalising keeps a text exactly if there is nothing to normalise in it. -/
theorem normalizeChars_eq_self_iff :
    normalizeChars cs = cs ↔ Text.trim cs = cs ∧ Normal cs := by
  rw [normalizeChars_eq_foldl, Text.foldl_eq_self _ reduces_stages]
  simp only [stages, List.forall_mem_cons, List.not_mem_nil, false_implies, implies_true, and_true]
  constructor
  · rintro ⟨htrim, hdollars, -, hprompt, -, hquestions, -, hequals, hsymbols, hexpand, -⟩
    exact ⟨htrim, .of_stages hdollars hprompt hquestions hequals hsymbols hexpand⟩
  · intro ⟨htrim, h⟩
    have hlast (c : Char) (hc : c ∈ ['$', '?', '=']) : ∀ d ∈ cs.getLast?, d ≠ c := by
      intro d hd he
      exact h.last d hd (he ▸ hc)
    have hdollars := dropDollars_eq_self.2 ⟨h.head, hlast '$' (by decide)⟩
    have hquestions : Text.dropTailWhile (· == '?') cs = cs :=
      dropTailWhile_eq_self.2 fun d hd => beq_false_of_ne (hlast '?' (by decide) d hd)
    have hequals := dropEquals_eq_self.2 (hlast '=' (by decide))
    have hexpand : Latex.expand cs = cs :=
      (passes_eq_self _).2 (pass_eq_self.2 ⟨h.fraction, h.root⟩)
    exact ⟨htrim, hdollars, htrim, dropPrompt_eq_self.2 h.prompt, htrim, hquestions,
      (trim_eq_self.1 htrim).2, hequals, replaceSymbols_eq_self.2 h.symbols, hexpand, htrim⟩

end Stages

end Reckon.Normalize
