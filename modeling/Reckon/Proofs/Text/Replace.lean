import Reckon.Text.Blank
import Reckon.Text.Replace

/-!
Replacing parts of a text, step by step: a match is written and passed over, a character
without a match is kept, and a text without the replaced one stays as it is. Trimming
takes the blanks around a text and nothing else.
-/

namespace Reckon.Text

variable {rule : Rule} {written cs rest : List Char} {c : Char}

/-- Characters that belong to the last match are passed over. -/
theorem replaceFrom_pending (n : Nat) (written cs : List Char) :
    replaceFrom rule n written cs = replaceFrom rule 0 written (cs.drop n) := by
  induction cs generalizing n with
  | nil => simp [replaceFrom]
  | cons c cs ih =>
      cases n with
      | zero => rfl
      | succ n =>
          rw [replaceFrom, ih, List.drop_succ_cons]

theorem replaceFrom_match {replacement : List Char} {length : Nat}
    (h : rule (c :: rest) = some (replacement, length + 1)) :
    replaceFrom rule 0 written (c :: rest) =
      replaceFrom rule 0 (replacement.reverse ++ written) (rest.drop length) := by
  rw [replaceFrom, h]
  exact replaceFrom_pending ..

theorem replaceFrom_keep (h : rule (c :: rest) = none) :
    replaceFrom rule 0 written (c :: rest) = replaceFrom rule 0 (c :: written) rest := by
  rw [replaceFrom, h]

/-- The rule makes the second text of the first, whatever stands around it. -/
def Rewrites (rule : Rule) (cs cs' : List Char) : Prop :=
  ∀ written rest, replaceFrom rule 0 written (cs ++ rest) =
    replaceFrom rule 0 (cs'.reverse ++ written) rest

theorem Rewrites.nil : Rewrites rule [] [] := fun _ _ => rfl

theorem Rewrites.append {cs' ds ds' : List Char} (h : Rewrites rule cs cs')
    (h' : Rewrites rule ds ds') : Rewrites rule (cs ++ ds) (cs' ++ ds') := by
  intro written rest
  rw [List.append_assoc, h, h']
  simp

theorem Rewrites.cons {cs' : List Char} (hc : ∀ rest, rule (c :: (cs ++ rest)) = none)
    (h : Rewrites rule cs cs') : Rewrites rule (c :: cs) (c :: cs') := by
  intro written rest
  rw [List.cons_append, replaceFrom_keep (hc rest), h]
  simp

theorem Rewrites.of_match {replacement : List Char} (hne : cs ≠ [])
    (h : ∀ rest, rule (cs ++ rest) = some (replacement, cs.length)) :
    Rewrites rule cs replacement := by
  intro written rest
  obtain ⟨c, cs, rfl⟩ := List.exists_cons_of_ne_nil hne
  have hmatch : rule (c :: (cs ++ rest)) = some (replacement, cs.length + 1) := h rest
  rw [List.cons_append, replaceFrom_match hmatch, List.drop_left]

/-- Characters at none of which the rule applies are kept. -/
theorem Rewrites.of_forall (h : ∀ c ∈ cs, ∀ rest, rule (c :: rest) = none) :
    Rewrites rule cs cs := by
  induction cs with
  | nil => exact .nil
  | cons c cs ih =>
      obtain ⟨hc, hcs⟩ := List.forall_mem_cons.1 h
      exact .cons (fun _ => hc _) (ih hcs)

theorem Rewrites.replaceAll {cs' : List Char} (h : Rewrites rule cs cs') :
    replaceAll rule cs = cs' := by
  have hall := h [] []
  rw [List.append_nil] at hall
  rw [Text.replaceAll, hall, replaceFrom]
  simp

/-- A text that does not hold the replaced one stays as it is. -/
theorem replaceAll_literal_of_not_infix {source target : String}
    (h : ¬ source.toList <:+: cs) : replaceAll (literal source target) cs = cs := by
  have hkeep (written : List Char) :
      replaceFrom (literal source target) 0 written cs = written.reverse ++ cs := by
    induction cs generalizing written with
    | nil => simp [replaceFrom]
    | cons c cs ih =>
        have hc : literal source target (c :: cs) = none := by
          rw [literal, if_neg]
          exact fun hp => h (List.isPrefixOf_iff_prefix.1 hp).isInfix
        rw [replaceFrom_keep hc, ih fun hi => h (hi.trans (List.suffix_cons c cs).isInfix)]
        simp
  exact hkeep []

section Trim

/-- A text that neither begins nor ends with a blank. -/
def Solid (cs : List Char) : Prop :=
  (∃ c ∈ cs.head?, isBlank c = false) ∧ ∃ c ∈ cs.getLast?, isBlank c = false

variable {p : Char → Bool} {gap gap' ds : List Char}

theorem Solid.of_all (hne : cs ≠ []) (h : cs.all fun c => !isBlank c) : Solid cs := by
  have hall : ∀ c ∈ cs, isBlank c = false := by simpa using h
  obtain ⟨c, rest, rfl⟩ := List.exists_cons_of_ne_nil hne
  exact ⟨⟨c, rfl, hall c List.mem_cons_self⟩, _, List.getLast?_eq_some_getLast hne,
    hall _ (List.getLast_mem hne)⟩

theorem Solid.ne_nil (h : Solid cs) : cs ≠ [] := by
  obtain ⟨⟨c, hc, -⟩, -⟩ := h
  rintro rfl
  cases hc

theorem dropWhile_of_head (h : ∀ c ∈ cs.head?, p c = false) : cs.dropWhile p = cs := by
  cases cs with
  | nil => rfl
  | cons c cs => simp [h c rfl]

theorem dropTailWhile_of_getLast (h : ∀ c ∈ cs.getLast?, p c = false) :
    dropTailWhile p cs = cs := by
  rw [dropTailWhile, dropWhile_of_head (by simpa using h), List.reverse_reverse]

theorem Solid.trimLeft (h : Solid cs) : trimLeft cs = cs := by
  obtain ⟨c, hc, hb⟩ := h.1
  exact dropWhile_of_head fun d hd => Option.mem_unique hc hd ▸ hb

theorem Solid.trimRight (h : Solid cs) : trimRight cs = cs := by
  obtain ⟨c, hc, hb⟩ := h.2
  exact dropTailWhile_of_getLast fun d hd => Option.mem_unique hc hd ▸ hb

/-- Trimming takes the blanks around a solid text. -/
theorem Solid.trim (h : Solid cs) (hg : ∀ c ∈ gap, isBlank c) (hg' : ∀ c ∈ gap', isBlank c) :
    trim (gap ++ (cs ++ gap')) = cs := by
  obtain ⟨c, hc, hb⟩ := h.1
  have hleft : Text.trimLeft (gap ++ (cs ++ gap')) = cs ++ gap' := by
    rw [Text.trimLeft, List.dropWhile_append_of_pos hg, dropWhile_of_head]
    rw [List.head?_append, Option.mem_def.1 hc]
    rintro _ ⟨⟩
    exact hb
  rw [Text.trim, hleft, Text.trimRight, dropTailWhile, List.reverse_append,
    List.dropWhile_append_of_pos (by simpa using hg')]
  exact h.trimRight

theorem Solid.trim_self (h : Solid cs) : Text.trim cs = cs := by
  rw [Text.trim, h.trimLeft, h.trimRight]

theorem Solid.append (h : Solid cs) (h' : Solid ds) (between : List Char) :
    Solid (cs ++ (between ++ ds)) := by
  obtain ⟨c, hc, hb⟩ := h.1
  obtain ⟨d, hd, hb'⟩ := h'.2
  refine ⟨⟨c, ?_, hb⟩, d, ?_, hb'⟩
  · rw [List.head?_append, Option.mem_def.1 hc]
    rfl
  · rw [List.getLast?_append, List.getLast?_append, Option.mem_def.1 hd]
    rfl

end Trim

end Reckon.Text
