import Reckon.Latex
import Reckon.Proofs.Text.Replace

/-!
Text with fractions and roots, as data: what it is written as, what it is written as once
every fraction and root is expanded, and what the rules for both find in it. What the text
means is not described here.
-/

namespace Reckon.Latex

/-- A character that is part of no command and bounds no group. -/
def isLetter (c : Char) : Bool := c != '\\' && c != openBrace && c != closeBrace

theorem isLetter_of_isBlank {c : Char} (h : Text.isBlank c) : isLetter c := by
  have hne (d : Char) (hd : Text.isBlank d = false) : c ≠ d := by
    rintro rfl
    rw [h] at hd
    cases hd
  simp [isLetter, hne '\\' (by decide), hne openBrace (by decide), hne closeBrace (by decide)]

theorem isLetter_iff {c : Char} :
    isLetter c ↔ c ≠ '\\' ∧ c ≠ openBrace ∧ c ≠ closeBrace := by
  simp [isLetter, and_assoc]

abbrev Letter := {c : Char // isLetter c}

abbrev Blank := {c : Char // Text.isBlank c}

/-- A text with fractions and roots, whose commands may have blanks behind them. -/
inductive Markup where
  | done
  | letter (c : Letter) (rest : Markup)
  | frac (gap gap' : List Blank) (above below rest : Markup)
  | root (gap : List Blank) (body rest : Markup)

namespace Markup

def ofLetters : List Letter → Markup
  | [] => done
  | c :: cs => letter c (ofLetters cs)

def append : Markup → Markup → Markup
  | done, m => m
  | letter c rest, m => letter c (rest.append m)
  | frac gap gap' above below rest, m => frac gap gap' above below (rest.append m)
  | root gap body rest, m => root gap body (rest.append m)

instance : Append Markup := ⟨append⟩

/-- The text as it is written. -/
def source : Markup → List Char
  | done => []
  | letter c rest => c.1 :: rest.source
  | frac gap gap' above below rest =>
      ['\\', 'f', 'r', 'a', 'c'] ++ (gap.unattach ++ openBrace :: (above.source ++ closeBrace ::
        (gap'.unattach ++ openBrace :: (below.source ++ closeBrace :: rest.source))))
  | root gap body rest =>
      ['\\', 's', 'q', 'r', 't'] ++ (gap.unattach ++ openBrace :: (body.source ++
        closeBrace :: rest.source))

/-- The text with all fractions and roots expanded. -/
def plain : Markup → List Char
  | done => []
  | letter c rest => c.1 :: rest.plain
  | frac _ _ above below rest =>
      '(' :: (above.plain ++ ')' :: '/' :: '(' :: (below.plain ++ ')' :: rest.plain))
  | root _ body rest => ['s', 'q', 'r', 't', '('] ++ (body.plain ++ ')' :: rest.plain)

/-- How deep fractions and roots are nested. -/
def depth : Markup → Nat
  | done => 0
  | letter _ rest => rest.depth
  | frac _ _ above below rest => max (max above.depth below.depth + 1) rest.depth
  | root _ body rest => max (body.depth + 1) rest.depth

/-- Blanks, as characters of a text. -/
def ofBlanks : List Blank → Markup
  | [] => done
  | c :: cs => letter ⟨c.1, isLetter_of_isBlank c.2⟩ (ofBlanks cs)

/-- The text of letters. -/
def word (text : String) (h : text.toList.all isLetter) : Markup :=
  ofLetters (text.toList.attachWith _ (List.all_eq_true.1 h))

variable (m m' : Markup) (cs : List Letter)

@[simp] theorem source_append : (m ++ m').source = m.source ++ m'.source := by
  change (m.append m').source = _
  induction m with
  | done => rfl
  | letter c rest ih => exact congrArg (c.1 :: ·) ih
  | frac gap gap' above below rest _ _ ih => simp [append, source, ih]
  | root gap body rest _ ih => simp [append, source, ih]

@[simp] theorem plain_append : (m ++ m').plain = m.plain ++ m'.plain := by
  change (m.append m').plain = _
  induction m with
  | done => rfl
  | letter c rest ih => exact congrArg (c.1 :: ·) ih
  | frac gap gap' above below rest _ _ ih => simp [append, plain, ih]
  | root gap body rest _ ih => simp [append, plain, ih]

@[simp] theorem depth_append : (m ++ m').depth = max m.depth m'.depth := by
  change (m.append m').depth = _
  induction m with
  | done => exact (Nat.zero_max _).symm
  | letter c rest ih => exact ih
  | frac gap gap' above below rest _ _ ih => simp only [append, depth, ih, Nat.max_assoc]
  | root gap body rest _ ih => simp only [append, depth, ih, Nat.max_assoc]

@[simp] theorem source_ofLetters : (ofLetters cs).source = cs.unattach := by
  induction cs with
  | nil => rfl
  | cons c cs ih => exact congrArg (c.1 :: ·) ih

@[simp] theorem plain_ofLetters : (ofLetters cs).plain = cs.unattach := by
  induction cs with
  | nil => rfl
  | cons c cs ih => exact congrArg (c.1 :: ·) ih

@[simp] theorem depth_ofLetters : (ofLetters cs).depth = 0 := by
  induction cs with
  | nil => rfl
  | cons c cs ih => exact ih

@[simp] theorem source_ofBlanks (gap : List Blank) : (ofBlanks gap).source = gap.unattach := by
  induction gap with
  | nil => rfl
  | cons c gap ih => exact congrArg (c.1 :: ·) ih

@[simp] theorem plain_ofBlanks (gap : List Blank) : (ofBlanks gap).plain = gap.unattach := by
  induction gap with
  | nil => rfl
  | cons c gap ih => exact congrArg (c.1 :: ·) ih

theorem source_word {text : String} (h : text.toList.all isLetter) :
    (word text h).source = text.toList := by
  simp [word]

theorem plain_word {text : String} (h : text.toList.all isLetter) :
    (word text h).plain = text.toList := by
  simp [word]

/-- The innermost fractions expanded. -/
def fractions : Markup → Markup
  | done => done
  | letter c rest => letter c rest.fractions
  | frac gap gap' above below rest =>
      if above.depth = 0 ∧ below.depth = 0 then
        word "(" (by decide) ++ (above ++ (word ")/(" (by decide) ++
          (below ++ (word ")" (by decide) ++ rest.fractions))))
      else frac gap gap' above.fractions below.fractions rest.fractions
  | root gap body rest => root gap body.fractions rest.fractions

/-- The innermost roots expanded. -/
def roots : Markup → Markup
  | done => done
  | letter c rest => letter c rest.roots
  | frac gap gap' above below rest => frac gap gap' above.roots below.roots rest.roots
  | root gap body rest =>
      if body.depth = 0 then
        word "sqrt(" (by decide) ++ (body ++ (word ")" (by decide) ++ rest.roots))
      else root gap body.roots rest.roots

@[simp] theorem depth_word {text : String} (h : text.toList.all isLetter) :
    (word text h).depth = 0 := by
  simp [word]

theorem append_assoc (m m' m'' : Markup) : m ++ m' ++ m'' = m ++ (m' ++ m'') := by
  change (m.append m').append m'' = m.append (m'.append m'')
  induction m with
  | done => rfl
  | letter c rest ih => exact congrArg (letter c) ih
  | frac gap gap' above below rest iha ihb ihr => exact congrArg (frac gap gap' above below) ihr
  | root gap body rest ihb ihr => exact congrArg (root gap body) ihr

theorem roots_append : (m ++ m').roots = m.roots ++ m'.roots := by
  induction m with
  | done => rfl
  | letter c rest ih => exact congrArg (letter c) ih
  | frac gap gap' above below rest iha ihb ihr =>
      exact congrArg (frac gap gap' above.roots below.roots) ihr
  | root gap body rest ihb ihr =>
      change (root gap body (rest ++ m')).roots = _
      simp only [roots]
      split
      · simp only [ihr, append_assoc]
      · exact congrArg (root gap body.roots) ihr

theorem roots_ofLetters : (ofLetters cs).roots = ofLetters cs := by
  induction cs with
  | nil => rfl
  | cons c cs ih => rw [ofLetters, roots, ih]

theorem roots_word {text : String} (h : text.toList.all isLetter) :
    (word text h).roots = word text h :=
  roots_ofLetters _

theorem plain_fractions : m.fractions.plain = m.plain := by
  induction m with
  | done => rfl
  | letter c rest ih => simp [fractions, plain, ih]
  | frac gap gap' above below rest iha ihb ihr =>
      rw [fractions]
      split
      · simp [plain, plain_word, ihr]
      · simp [plain, iha, ihb, ihr]
  | root gap body rest ihb ihr => simp [fractions, plain, ihb, ihr]

theorem plain_roots : m.roots.plain = m.plain := by
  induction m with
  | done => rfl
  | letter c rest ih => simp [roots, plain, ih]
  | frac gap gap' above below rest iha ihb ihr => simp [roots, plain, iha, ihb, ihr]
  | root gap body rest ihb ihr =>
      rw [roots]
      split
      · simp [plain, plain_word, ihr]
      · simp [plain, ihb, ihr]

theorem source_of_flat (h : m.depth = 0) :
    m.source = m.plain ∧ ∀ c ∈ m.source, isLetter c := by
  induction m with
  | done => simp [source, plain]
  | letter c rest ih =>
      obtain ⟨heq, hall⟩ := ih h
      exact ⟨congrArg (c.1 :: ·) heq, List.forall_mem_cons.2 ⟨c.2, hall⟩⟩
  | frac gap gap' above below rest | root gap body rest =>
      simp only [depth] at h
      omega

/-- A text that is not flat opens a group before it closes one. -/
theorem source_of_not_flat (h : m.depth ≠ 0) :
    ∃ front back, m.source = front ++ openBrace :: back ∧
      ∀ c ∈ front, c ≠ openBrace ∧ c ≠ closeBrace := by
  have hgap (gap : List Blank) : ∀ c ∈ gap.unattach, c ≠ openBrace ∧ c ≠ closeBrace := by
    intro c hc
    obtain ⟨hb, -⟩ := List.mem_unattach.1 hc
    constructor <;> rintro rfl <;> exact absurd hb (by decide)
  have hcommand (name : List Char) (hn : ∀ c ∈ name, c ≠ openBrace ∧ c ≠ closeBrace)
      (gap : List Blank) (back : List Char) :
      ∃ front back', name ++ (gap.unattach ++ openBrace :: back) =
        front ++ openBrace :: back' ∧ ∀ c ∈ front, c ≠ openBrace ∧ c ≠ closeBrace :=
    ⟨name ++ gap.unattach, back, by simp,
      List.forall_mem_append.2 ⟨hn, hgap gap⟩⟩
  induction m with
  | done => exact absurd rfl h
  | letter c rest ih =>
      obtain ⟨front, back, heq, hall⟩ := ih h
      exact ⟨c.1 :: front, back, congrArg (c.1 :: ·) heq,
        List.forall_mem_cons.2 ⟨(isLetter_iff.1 c.2).2, hall⟩⟩
  | frac gap gap' above below rest =>
      exact hcommand _ (by simp [openBrace, closeBrace]) gap _
  | root gap body rest =>
      exact hcommand _ (by simp [openBrace, closeBrace]) gap _

end Markup

open Markup

/-- A group is found where it is flat. -/
theorem group?_source (gap : List Blank) (m : Markup) (rest : List Char) :
    group? (gap.unattach ++ openBrace :: (m.source ++ closeBrace :: rest)) =
      if m.depth = 0 then some (m.source, gap.length + m.source.length + 2) else none := by
  have hgap : ∀ c ∈ gap.unattach, Text.isBlank c := fun c hc => (List.mem_unattach.1 hc).1
  have hbrace : Text.isBlank openBrace = false := by decide
  have hblanks : (gap.unattach ++ openBrace :: (m.source ++ closeBrace :: rest)).takeWhile
      Text.isBlank = gap.unattach := by
    rw [List.takeWhile_append_of_pos hgap, List.takeWhile_cons, hbrace]
    simp
  have hbody (body back : List Char) (h : ∀ c ∈ body, c ≠ openBrace ∧ c ≠ closeBrace) (c : Char)
      (hc : c = openBrace ∨ c = closeBrace) :
      (body ++ c :: back).takeWhile (fun d => d != openBrace && d != closeBrace) = body := by
    rw [List.takeWhile_append_of_pos (by simpa using h), List.takeWhile_cons]
    obtain rfl | rfl := hc <;> simp
  unfold group?
  simp only [hblanks, List.drop_left]
  by_cases hd : m.depth = 0
  · have hflat : ∀ c ∈ m.source, c ≠ openBrace ∧ c ≠ closeBrace :=
      fun c hc => (isLetter_iff.1 ((source_of_flat m hd).2 c hc)).2
    simp [hbody m.source rest hflat closeBrace (.inr rfl), hd]
  · obtain ⟨front, back, hm, hfront⟩ := source_of_not_flat m hd
    rw [hm, List.append_assoc, List.cons_append]
    simp [hbody front _ hfront openBrace (.inl rfl), hd, show openBrace ≠ closeBrace by decide]

section Rules

variable {gap gap' : List Blank} {above below body : Markup} {rest cs : List Char} {c : Char}

theorem fraction_of_ne (h : c ≠ '\\') (rest : List Char) : fraction (c :: rest) = none := by
  simp [fraction, Ne.symm h]

theorem root_of_ne (h : c ≠ '\\') (rest : List Char) : root (c :: rest) = none := by
  simp [root, Ne.symm h]

theorem source_frac (m : Markup) : (frac gap gap' above below m).source =
    (frac gap gap' above below done).source ++ m.source := by
  simp [source]

theorem source_root (m : Markup) : (Markup.root gap body m).source =
    (Markup.root gap body done).source ++ m.source := by
  simp [source]

theorem fraction_frac (rest : List Char) :
    fraction ((frac gap gap' above below done).source ++ rest) =
      if above.depth = 0 ∧ below.depth = 0 then
        some ("(".toList ++ above.source ++ ")/(".toList ++ below.source ++ ")".toList,
          (frac gap gap' above below done).source.length)
      else none := by
  have hname (cs : List Char) : fraction ("\\frac".toList ++ cs) =
      (group? cs).bind fun g => (group? (cs.drop g.2)).bind fun g' =>
        some ("(".toList ++ g.1 ++ ")/(".toList ++ g'.1 ++ ")".toList, 5 + g.2 + g'.2) := by
    have hprefix : "\\frac".toList.isPrefixOf ("\\frac".toList ++ cs) = true := rfl
    have hdrop (n : Nat) :
        ("\\frac".toList ++ cs).drop ("\\frac".toList.length + n) = cs.drop n := by
      rw [← List.drop_drop, List.drop_left]
    simp only [fraction, hprefix, if_true, List.drop_left, hdrop]
    rfl
  have hsource : (frac gap gap' above below done).source ++ rest =
      "\\frac".toList ++ (gap.unattach ++ openBrace :: (above.source ++ closeBrace ::
        (gap'.unattach ++ openBrace :: (below.source ++ closeBrace :: rest)))) := by
    simp [source]
  rw [hsource, hname, group?_source]
  by_cases ha : above.depth = 0
  · have hdrop (back : List Char) : (gap.unattach ++ openBrace :: (above.source ++ closeBrace ::
        back)).drop (gap.length + above.source.length + 2) = back := by
      have hlen : gap.length + above.source.length + 2 =
          (gap.unattach ++ openBrace :: (above.source ++ [closeBrace])).length := by
        simp
        omega
      have hsplit : gap.unattach ++ openBrace :: (above.source ++ closeBrace :: back) =
          gap.unattach ++ openBrace :: (above.source ++ [closeBrace]) ++ back := by
        simp
      rw [hsplit, hlen, List.drop_left]
    simp only [ha, if_true, true_and, Option.bind_some, hdrop, group?_source]
    split
    · simp [source]
      omega
    · rfl
  · simp [ha]

theorem root_sqrt (rest : List Char) :
    root ((Markup.root gap body done).source ++ rest) =
      if body.depth = 0 then
        some ("sqrt(".toList ++ body.source ++ ")".toList,
          (Markup.root gap body done).source.length)
      else none := by
  have hname (cs : List Char) : root ("\\sqrt".toList ++ cs) =
      (group? cs).bind fun g => some ("sqrt(".toList ++ g.1 ++ ")".toList, 5 + g.2) := rfl
  have hsource : (Markup.root gap body done).source ++ rest =
      "\\sqrt".toList ++ (gap.unattach ++ openBrace :: (body.source ++ closeBrace :: rest)) := by
    simp [source]
  rw [hsource, hname, group?_source]
  split
  · simp [source]
    omega
  · rfl

end Rules

end Reckon.Latex
