import Reckon.Proofs.Latex.Markup

/-!
Passes over a text with fractions and roots. Every pass takes two turns, one at the
innermost fractions and one at the innermost roots, and a group is expanded in the first
turn of its kind behind those of its body. The turns of a text say how many passes it
takes; they are never more than two for each level of nesting.
-/

namespace Reckon.Latex

namespace Markup

variable (m m' : Markup)

/-- The first turn behind a turn that fractions have. -/
def oddAfter (turn : Nat) : Nat := turn + 1 + turn % 2

/-- The first turn behind a turn that roots have. -/
def evenAfter (turn : Nat) : Nat := turn + 2 - turn % 2

/-- The turn in which the last group is expanded. -/
def turns : Markup → Nat
  | done => 0
  | letter _ rest => rest.turns
  | frac _ _ above below rest => max (oddAfter (max above.turns below.turns)) rest.turns
  | root _ body rest => max (evenAfter body.turns) rest.turns

@[simp] theorem turns_append : (m ++ m').turns = max m.turns m'.turns := by
  change (m.append m').turns = _
  induction m with
  | done => exact (Nat.zero_max _).symm
  | letter c rest ih => exact ih
  | frac gap gap' above below rest _ _ ih => simp only [append, turns, ih, Nat.max_assoc]
  | root gap body rest _ ih => simp only [append, turns, ih, Nat.max_assoc]

theorem turns_eq_zero : m.turns = 0 ↔ m.depth = 0 := by
  induction m with
  | done => exact Iff.rfl
  | letter c rest ih => exact ih
  | frac gap gap' above below rest | root gap body rest =>
      simp only [turns, depth, oddAfter, evenAfter]
      omega

@[simp] theorem turns_word {text : String} (h : text.toList.all isLetter) :
    (word text h).turns = 0 :=
  (turns_eq_zero _).2 (depth_word h)

/-- Two turns are enough for each level. -/
theorem turns_le : m.turns ≤ 2 * m.depth := by
  induction m with
  | done => exact Nat.le_refl _
  | letter c rest ih => exact ih
  | frac gap gap' above below rest iha ihb ihr =>
      simp only [turns, depth, oddAfter]
      omega
  | root gap body rest ihb ihr =>
      simp only [turns, depth, evenAfter]
      omega

theorem roots_of_flat (h : m.depth = 0) : m.roots = m := by
  induction m with
  | done => rfl
  | letter c rest ih => exact congrArg (letter c) (ih h)
  | frac gap gap' above below rest | root gap body rest =>
      simp only [depth] at h
      omega

theorem depth_fractions_eq_zero : m.fractions.depth = 0 ↔ m.turns ≤ 1 := by
  induction m with
  | done => simp [fractions, depth, turns]
  | letter c rest ih => exact ih
  | frac gap gap' above below rest iha ihb ihr =>
      have ha := turns_eq_zero above
      have hb := turns_eq_zero below
      rw [fractions]
      split
      · simp only [depth_append, depth_word, turns, oddAfter]
        omega
      · simp only [depth, turns, oddAfter]
        omega
  | root gap body rest ihb ihr =>
      simp only [fractions, depth, turns, evenAfter]
      omega

/-- A pass takes two turns. -/
theorem turns_pass : m.fractions.roots.turns = m.turns - 2 := by
  induction m with
  | done => rfl
  | letter c rest ih => exact ih
  | frac gap gap' above below rest iha ihb ihr =>
      have ha := turns_eq_zero above
      have hb := turns_eq_zero below
      rw [fractions]
      split
      · rename_i hflat
        simp only [roots_append, roots_word, roots_of_flat above hflat.1,
          roots_of_flat below hflat.2, turns_append, turns_word, turns, ihr, ha.2 hflat.1,
          hb.2 hflat.2, oddAfter]
        omega
      · have hbody : max above.turns below.turns ≠ 0 := by omega
        have hturn : oddAfter (max above.turns below.turns - 2) =
            oddAfter (max above.turns below.turns) - 2 := by
          simp only [oddAfter]
          omega
        rw [roots, turns, turns, iha, ihb, ihr, Nat.sub_max_sub_right, hturn,
          Nat.sub_max_sub_right]
  | root gap body rest ihb ihr =>
      have hturns := turns_eq_zero body.fractions
      have hbody := depth_fractions_eq_zero body
      rw [fractions, roots]
      split
      · simp only [turns_append, turns_word, turns, ihr, evenAfter]
        omega
      · simp only [turns, ihb, ihr, evenAfter]
        omega

/-- No part of a command is left in an expanded text. -/
theorem isLetter_of_mem_plain : ∀ c ∈ m.plain, isLetter c := by
  induction m with
  | done => simp [plain]
  | letter c rest ih => exact List.forall_mem_cons.2 ⟨c.2, ih⟩
  | frac gap gap' above below rest iha ihb ihr =>
      simp only [plain, List.forall_mem_cons, List.forall_mem_append]
      exact ⟨by decide, iha, by decide, by decide, by decide, ihb, by decide, ihr⟩
  | root gap body rest ihb ihr =>
      have hname : ∀ c ∈ "sqrt(".toList, isLetter c := List.all_eq_true.1 (by decide)
      exact List.forall_mem_append.2 ⟨hname,
        List.forall_mem_append.2 ⟨ihb, List.forall_mem_cons.2 ⟨by decide, ihr⟩⟩⟩

theorem source_eq_plain : m.source = m.plain ↔ m.depth = 0 := by
  refine ⟨fun h => ?_, fun h => (source_of_flat m h).1⟩
  apply Decidable.byContradiction
  intro hd
  obtain ⟨front, back, hm, -⟩ := source_of_not_flat m hd
  have hopen : openBrace ∈ m.plain := by simp [← h, hm]
  exact absurd (isLetter_of_mem_plain m _ hopen) (by decide)

end Markup

open Markup Text

section Rewriting

variable {rule : Rule} {gap : List Blank}

/-- A rule for commands keeps a text without any. -/
theorem rewrites_of_not_mem (h : ∀ c, c ≠ '\\' → ∀ rest, rule (c :: rest) = none)
    {cs : List Char} (hcs : '\\' ∉ cs) : Rewrites rule cs cs :=
  .of_forall fun c hc => h c (ne_of_mem_of_not_mem hc hcs)

/-- A rule for commands goes on inside a group and behind it. -/
theorem rewrites_group (h : ∀ c, c ≠ '\\' → ∀ rest, rule (c :: rest) = none)
    {cs cs' ds ds' : List Char} (hcs : Rewrites rule cs cs') (hds : Rewrites rule ds ds') :
    Rewrites rule (gap.unattach ++ openBrace :: (cs ++ closeBrace :: ds))
      (gap.unattach ++ openBrace :: (cs' ++ closeBrace :: ds')) := by
  have hgap : Rewrites rule gap.unattach gap.unattach := rewrites_of_not_mem h fun hc =>
    absurd (List.mem_unattach.1 hc).1 (by decide)
  have hopen (rest : List Char) : rule (openBrace :: rest) = none := h _ (by decide) rest
  have hclose (rest : List Char) : rule (closeBrace :: rest) = none := h _ (by decide) rest
  exact hgap.append (.cons (fun _ => hopen _) (hcs.append (.cons (fun _ => hclose _) hds)))

theorem fractions_rewrites (m : Markup) : Rewrites fraction m.source m.fractions.source := by
  induction m with
  | done => exact .nil
  | letter c rest ih =>
      exact .cons (fun _ => fraction_of_ne (isLetter_iff.1 c.2).1 _) ih
  | frac gap gap' above below rest iha ihb ihr =>
      rw [fractions]
      split
      · rename_i hflat
        have hmatch : Rewrites fraction (frac gap gap' above below done).source _ :=
          .of_match (by simp [source]) fun tail => (fraction_frac tail).trans (if_pos hflat)
        rw [source_frac]
        have h := hmatch.append ihr
        simpa [source_word] using h
      · rename_i hflat
        have hname : Rewrites fraction "frac".toList "frac".toList :=
          rewrites_of_not_mem (fun _ => fraction_of_ne) (by decide)
        refine .cons (fun tail => ?_) (hname.append (rewrites_group (fun _ => fraction_of_ne) iha
          (rewrites_group (fun _ => fraction_of_ne) ihb ihr)))
        have hnone := @fraction_frac gap gap' above below (rest.source ++ tail)
        rw [if_neg hflat, ← List.append_assoc, ← source_frac] at hnone
        exact hnone
  | root gap body rest ihb ihr =>
      have hname : Rewrites fraction "sqrt".toList "sqrt".toList :=
        rewrites_of_not_mem (fun _ => fraction_of_ne) (by decide)
      refine .cons (fun tail => ?_)
        (hname.append (rewrites_group (fun _ => fraction_of_ne) ihb ihr))
      rfl

theorem roots_rewrites (m : Markup) : Rewrites root m.source m.roots.source := by
  induction m with
  | done => exact .nil
  | letter c rest ih =>
      exact .cons (fun _ => root_of_ne (isLetter_iff.1 c.2).1 _) ih
  | frac gap gap' above below rest iha ihb ihr =>
      have hname : Rewrites root "frac".toList "frac".toList :=
        rewrites_of_not_mem (fun _ => root_of_ne) (by decide)
      refine .cons (fun tail => ?_) (hname.append (rewrites_group (fun _ => root_of_ne) iha
        (rewrites_group (fun _ => root_of_ne) ihb ihr)))
      rfl
  | root gap body rest ihb ihr =>
      rw [roots]
      split
      · rename_i hflat
        have hmatch : Rewrites root (Markup.root gap body done).source _ :=
          .of_match (by simp [source]) fun tail => (root_sqrt tail).trans (if_pos hflat)
        rw [source_root]
        have h := hmatch.append ihr
        simpa [source_word] using h
      · rename_i hflat
        have hname : Rewrites root "sqrt".toList "sqrt".toList :=
          rewrites_of_not_mem (fun _ => root_of_ne) (by decide)
        refine .cons (fun tail => ?_) (hname.append (rewrites_group (fun _ => root_of_ne) ihb ihr))
        have hnone := @root_sqrt gap body (rest.source ++ tail)
        rw [if_neg hflat, ← List.append_assoc, ← source_root] at hnone
        exact hnone

end Rewriting

theorem pass_source (m : Markup) : pass m.source = m.fractions.roots.source := by
  rw [pass, (fractions_rewrites m).replaceAll, (roots_rewrites _).replaceAll]

/-- A text is expanded by as many passes as take its turns and by no fewer. -/
theorem passes_source_iff (n : Nat) (m : Markup) :
    passes n m.source = m.plain ↔ m.turns ≤ 2 * n := by
  induction n generalizing m with
  | zero => rw [passes, source_eq_plain, Nat.le_zero, turns_eq_zero]
  | succ n ih =>
      rw [passes_succ, pass_source, ← plain_fractions, ← plain_roots, ih, turns_pass]
      omega

/-- As many passes as groups are nested expand them all. -/
theorem expand_source (m : Markup) (h : m.depth ≤ maxPasses) : expand m.source = m.plain := by
  have hturns := turns_le m
  exact (passes_source_iff maxPasses m).2 (by omega)

/-- Fractions and roots are all expanded where no more of them are nested than there are
passes, and then no part of a command is left. -/
theorem expand_nested (m : Markup) (h : m.depth ≤ maxPasses) :
    expand m.source = m.plain ∧
      ∀ c ∈ expand m.source, c ≠ '\\' ∧ c ≠ openBrace ∧ c ≠ closeBrace := by
  have hplain := expand_source m h
  refine ⟨hplain, fun c hc => isLetter_iff.1 (isLetter_of_mem_plain m c ?_)⟩
  rwa [hplain] at hc

/-- A root around a fraction whose lower part is a fraction, with a blank behind its name. -/
theorem expand_nested_root :
    ∃ m : Markup, m.depth = 3 ∧ m.depth ≤ maxPasses ∧
      m.source = "y\\sqrt \x7b\\frac\x7b1\x7d\x7b\\frac\x7bx\x7d\x7b2\x7d\x7d\x7d".toList ∧
      m.plain = "ysqrt((1)/((x)/(2)))".toList ∧ expand m.source = m.plain ∧
      ∀ c ∈ expand m.source, c ≠ '\\' ∧ c ≠ openBrace ∧ c ≠ closeBrace := by
  let inner : Markup := .frac [] [] (word "x" (by decide)) (word "2" (by decide)) .done
  let m : Markup := .letter ⟨'y', by decide⟩
    (.root [⟨' ', by decide⟩] (.frac [] [] (word "1" (by decide)) inner .done) .done)
  have hdepth : m.depth = 3 := rfl
  have hle : m.depth ≤ maxPasses := by decide
  exact ⟨m, hdepth, hle, by decide, by decide, expand_nested m hle⟩

end Reckon.Latex
