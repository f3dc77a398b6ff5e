import Mathlib.Data.List.DropRight
import Reckon.Proofs.Calculator.Equations
import Reckon.Proofs.Normalize
import Reckon.Proofs.Normalize.Normal
import Reckon.Proofs.Token.Kinds

/-!
Texts that are read as a statement already. No token has a character that is replaced, save
for the letter π in a name, and no phrase has two stars in a row, so such a text is kept but
for the blanks around it. A name that is a prompt is taken for one all the same.
-/

namespace Reckon

section Reading
open Reckon.Grammar

variable {position : Nat} {cs cs' : List Char} {parsed : Parsed}

/-- What a text is read as depends on the kinds of its tokens only. -/
theorem Expr.parseAt_eq_ok_iff_kinds :
    Expr.parseAt position cs = .ok parsed ↔ ∃ kinds, Token.kinds? 0 cs = some kinds ∧
      Derives 255 .sum 0 kinds parsed.expr ∧ parsed.expr.height ≤ Parser.maxHeight ∧
      parsed.tokenCount = kinds.length := by
  have hcount {tokens : List Token} {parsed : Parsed} (ht : Token.ofChars position cs = .ok tokens)
      (hp : Expr.parseAt position cs = .ok parsed) : parsed.tokenCount = tokens.length - 1 := by
    obtain ⟨tokens', ht', hp⟩ := bind_eq_ok.1 hp
    cases ht.symm.trans ht'
    obtain ⟨node, -, hp⟩ := bind_eq_ok.1 hp
    cases hp
    rfl
  constructor
  · intro h
    obtain ⟨tokens, ht, -⟩ := bind_eq_ok.1 h
    obtain ⟨kinds, hk, hmap⟩ := Token.kinds?_of_ofChars ht
    obtain ⟨hd, hh⟩ := (parseAt_eq_ok_iff ht).1 ⟨parsed, h, rfl⟩
    have hlength := congrArg List.length hmap
    rw [List.map_dropLast, hmap, List.dropLast_concat] at hd
    rw [List.length_map, List.length_append, List.length_singleton] at hlength
    exact ⟨kinds, hk, hd, hh, by rw [hcount ht h, hlength, Nat.add_sub_cancel]⟩
  · rintro ⟨kinds, hk, hd, hh, hn⟩
    obtain ⟨tokens, ht, hmap⟩ := Token.ofChars_of_kinds? hk position
    have hlength := congrArg List.length hmap
    rw [List.length_map, List.length_append, List.length_singleton] at hlength
    obtain ⟨parsed', hp, he⟩ := (parseAt_eq_ok_iff ht).2
      ⟨by rwa [List.map_dropLast, hmap, List.dropLast_concat], hh⟩
    have hn' := hcount ht hp
    rw [hlength, Nat.add_sub_cancel, ← hn] at hn'
    obtain ⟨expr, tokenCount⟩ := parsed
    obtain ⟨expr', tokenCount'⟩ := parsed'
    cases he
    cases hn'
    exact hp

theorem Expr.parseAt_congr (position' : Nat) (hk : Token.kinds? 0 cs' = Token.kinds? 0 cs)
    (h : Expr.parseAt position cs = .ok parsed) : Expr.parseAt position' cs' = .ok parsed := by
  rw [parseAt_eq_ok_iff_kinds] at h ⊢
  rwa [hk]

end Reading

namespace Grammar
open Token (NotBoth)

variable {limit : Nat} {form : Form} {depth : Nat} {ks ks' : List Token.Kind} {e : Expr}

/-- No two stars are next to each other, nor would they be next to such tokens. -/
structure Apart (ks : List Token.Kind) : Prop where
  chain : ks.IsChain (NotBoth .star)
  head : ∀ k ∈ ks.head?, k ≠ .star
  last : ∀ k ∈ ks.getLast?, k ≠ .star

namespace Apart

theorem nil : Apart [] := ⟨.nil, by simp, by simp⟩

theorem singleton {k : Token.Kind} (hk : k ≠ .star) : Apart [k] :=
  ⟨.singleton k, by simpa using hk, by simpa using hk⟩

theorem append (h : Apart ks) (h' : Apart ks') : Apart (ks ++ ks') where
  chain := List.isChain_append.2 ⟨h.chain, h'.chain, fun k hk _ _ he => h.last k hk he.1⟩
  head k hk := by
    cases ks with
    | nil => exact h'.head k hk
    | cons k' ks => exact h.head k hk
  last k hk := by
    rw [List.getLast?_append] at hk
    cases hlast : ks'.getLast? with
    | none => exact h.last k (by simpa [hlast] using hk)
    | some k' => exact h'.last k (by simpa [hlast] using hk)

theorem cons {k : Token.Kind} (hk : k ≠ .star) (h : Apart ks) : Apart (k :: ks) :=
  (singleton hk).append h

theorem separated {items : List (List Token.Kind)} (h : ∀ ks ∈ items, Apart ks) :
    Apart (separated items) := by
  induction items with
  | nil => exact nil
  | cons ks rest ih =>
      obtain ⟨hks, hrest⟩ := List.forall_mem_cons.1 h
      cases rest with
      | nil => rwa [separated_singleton]
      | cons ks' rest =>
          rw [separated_cons_cons]
          exact hks.append ((ih hrest).cons (by decide))

/-- A star between two operands. -/
theorem star (h : Apart ks) (hks : ks ≠ []) (h' : Apart ks') (hks' : ks' ≠ []) :
    Apart (ks ++ .star :: ks') where
  chain := by
    have hright : (Token.Kind.star :: ks').IsChain (NotBoth .star) :=
      List.isChain_cons.2 ⟨fun k hk he => h'.head k hk he.2, h'.chain⟩
    exact List.isChain_append.2 ⟨h.chain, hright, fun k hk _ _ he => h.last k hk he.1⟩
  head k hk := by
    obtain ⟨k', ks, rfl⟩ := List.exists_cons_of_ne_nil hks
    exact h.head k hk
  last k hk := by
    obtain ⟨k', ks', rfl⟩ := List.exists_cons_of_ne_nil hks'
    exact h'.last k (by simpa using hk)

end Apart

theorem Derives.ne_nil (h : Derives limit form depth ks e) : ks ≠ [] := by
  obtain ⟨k, rest, rfl, -⟩ := h.head
  exact List.cons_ne_nil k rest

/-- A phrase neither begins nor ends with a star, and has no two of them in a row. -/
theorem Derives.apart (h : Derives limit form depth ks e) : Apart ks := by
  induction h with
  | ofProduct _ ih | ofUnary _ ih | ofPower _ _ ih | ofFactorial _ ih | ofPrimary _ ih =>
      exact ih
  | add _ _ ihl ihr | sub _ _ ihl ihr | div _ _ ihl ihr | pow _ _ ihl ihr =>
      exact ihl.append (ihr.cons (by decide))
  | mul hl hr ihl ihr => exact ihl.star hl.ne_nil ihr hr.ne_nil
  | neg _ _ ih => exact ih.cons (by decide)
  | factorial _ ih => exact ih.append (.singleton (by decide))
  | number value => exact .singleton (by simp)
  | var _ => exact .singleton (by simp)
  | group _ ih => exact (ih.append (.singleton (by decide))).cons (by decide)
  | call _ _ ih =>
      have hentries := Apart.separated (List.forall_mem_map.2 ih)
      exact ((hentries.append (.singleton (by decide))).cons (by decide)).cons (by simp)
  | list _ ih =>
      have hentries := Apart.separated (List.forall_mem_map.2 ih)
      exact (hentries.append (.singleton (by decide))).cons (by decide)

end Grammar

namespace Text

variable {p : Char → Bool} {c : Char} {cs : List Char}

theorem dropWhile_append_cons (hc : p c = false) (cs ds : List Char) :
    (cs ++ c :: ds).dropWhile p = cs.dropWhile p ++ c :: ds := by
  rw [List.dropWhile_append]
  split
  · rename_i h
    rw [List.isEmpty_iff.1 h, List.dropWhile_cons, hc]
    rfl
  · rfl

theorem dropTailWhile_append_cons (hc : p c = false) (cs ds : List Char) :
    dropTailWhile p (cs ++ c :: ds) = cs ++ c :: dropTailWhile p ds := by
  rw [dropTailWhile, dropTailWhile, List.reverse_append, List.reverse_cons, List.append_assoc,
    List.singleton_append, dropWhile_append_cons hc]
  simp

/-- Trimming around a character that is no blank. -/
theorem trim_append_cons (hc : isBlank c = false) (cs ds : List Char) :
    trim (cs ++ c :: ds) = trimLeft cs ++ c :: trimRight ds := by
  rw [trim, trimLeft, dropWhile_append_cons hc, trimRight, dropTailWhile_append_cons hc]
  rfl

theorem exists_trimLeft (cs : List Char) :
    ∃ gap, (∀ c ∈ gap, isBlank c) ∧ cs = gap ++ trimLeft cs :=
  ⟨cs.takeWhile isBlank, List.all_eq_true.1 List.all_takeWhile,
    List.takeWhile_append_dropWhile.symm⟩

theorem exists_trimRight (cs : List Char) :
    ∃ gap, (∀ c ∈ gap, isBlank c) ∧ cs = trimRight cs ++ gap := by
  obtain ⟨gap, hgap, hcs⟩ := exists_trimLeft cs.reverse
  refine ⟨gap.reverse, fun c hc => hgap c (List.mem_reverse.1 hc), ?_⟩
  rw [trimRight, dropTailWhile, ← List.reverse_append]
  exact List.reverse_eq_iff.1 hcs

/-- Trimming takes blanks from both ends. -/
theorem exists_trim (cs : List Char) : ∃ gap gap', (∀ c ∈ gap, isBlank c) ∧
    (∀ c ∈ gap', isBlank c) ∧ cs = gap ++ (trim cs ++ gap') := by
  obtain ⟨gap, hgap, hcs⟩ := exists_trimLeft cs
  obtain ⟨gap', hgap', hcs'⟩ := exists_trimRight (trimLeft cs)
  refine ⟨gap, gap', hgap, hgap', ?_⟩
  rw [trim, ← hcs', ← hcs]

theorem trim_infix (cs : List Char) : trim cs <:+: cs := by
  obtain ⟨gap, gap', -, -, hcs⟩ := exists_trim cs
  exact ⟨gap, gap', by rw [List.append_assoc, ← hcs]⟩

end Text

namespace Token

variable {cs : List Char}

theorem kinds?_trimLeft (cs : List Char) : kinds? 0 (Text.trimLeft cs) = kinds? 0 cs := by
  obtain ⟨gap, hgap, hcs⟩ := Text.exists_trimLeft cs
  nth_rewrite 2 [hcs]
  exact (kinds?_gap hgap _).symm

theorem kinds?_trimRight (cs : List Char) : kinds? 0 (Text.trimRight cs) = kinds? 0 cs := by
  obtain ⟨gap, hgap, hcs⟩ := Text.exists_trimRight cs
  nth_rewrite 2 [hcs]
  exact (kinds?_append hgap 0 _).symm

theorem kinds?_trim (cs : List Char) : kinds? 0 (Text.trim cs) = kinds? 0 cs := by
  rw [Text.trim, kinds?_trimRight, kinds?_trimLeft]

end Token

/-- What every text of an expression is like: nothing in it but blanks and tokens, no two
stars in a row, and not all of it blank. -/
structure Legible (cs : List Char) : Prop where
  parts : ∀ c ∈ cs, Text.isBlank c ∨ Token.isPart c
  chain : cs.IsChain (Token.NotBoth '*')
  solid : ∃ c ∈ cs, Text.isBlank c = false

theorem Expr.legible_of_parseAt {position : Nat} {cs : List Char} {parsed : Parsed}
    (h : Expr.parseAt position cs = .ok parsed) : Legible cs := by
  obtain ⟨kinds, hk, hd, -⟩ := parseAt_eq_ok_iff_kinds.1 h
  refine ⟨Token.isBlank_or_isPart hk, Token.isChain_of_kinds? hk hd.apart.chain, ?_⟩
  by_contra hnone
  push Not at hnone
  rw [Token.kinds?_of_forall_isBlank fun c hc => Bool.ne_false_iff.1 (hnone c hc)] at hk
  exact hd.ne_nil (Option.some.inj hk).symm

theorem Legible.equals_not_mem {cs : List Char} (h : Legible cs) : '=' ∉ cs := by
  intro hm
  exact absurd (h.parts '=' hm) (by decide +kernel)

theorem Legible.not_all_isBlank {cs : List Char} (h : Legible cs) :
    cs.all Text.isBlank = false := by
  obtain ⟨c, hm, hc⟩ := h.solid
  exact List.all_eq_false.2 ⟨c, hm, by simp [hc]⟩

theorem Expr.parseAt_trimLeft {position : Nat} {cs : List Char} {parsed : Parsed}
    (h : Expr.parseAt position cs = .ok parsed) (position' : Nat) :
    Expr.parseAt position' (Text.trimLeft cs) = .ok parsed :=
  parseAt_congr position' (Token.kinds?_trimLeft cs) h

theorem Expr.parseAt_trimRight {position : Nat} {cs : List Char} {parsed : Parsed}
    (h : Expr.parseAt position cs = .ok parsed) (position' : Nat) :
    Expr.parseAt position' (Text.trimRight cs) = .ok parsed :=
  parseAt_congr position' (Token.kinds?_trimRight cs) h

namespace Statement

/-- An expression, or an equation with one sign between its sides. -/
theorem ofChars_eq_ok_iff {cs : List Char} {statement : Statement} :
    ofChars cs = .ok statement ↔
      (∃ parsed, '=' ∉ cs ∧ Expr.parseAt 0 cs = .ok parsed ∧ statement = .expression parsed) ∨
      ∃ left right lhs rhs, cs = left ++ '=' :: right ∧ '=' ∉ left ++ right ∧
        Expr.parseAt 0 left = .ok lhs ∧ Expr.parseAt (left.length + 1) right = .ok rhs ∧
        statement = .equation lhs rhs := by
  constructor
  · intro h
    cases statement with
    | equation lhs rhs =>
        have hparse : parse (String.ofList cs) = .ok (.equation lhs rhs) := by
          rwa [parse, String.toList_ofList]
        obtain ⟨left, right, hsplit, hnot, hl, hr⟩ := sides_of_parse hparse
        rw [String.toList_ofList] at hsplit
        exact .inr ⟨left, right, lhs, rhs, hsplit, hnot, hl, hr, rfl⟩
    | expression parsed =>
        unfold ofChars at h
        split at h
        · dsimp only at h
          split at h
          · cases h
          · split at h
            · cases h
            · obtain ⟨lhs, -, h⟩ := bind_eq_ok.1 h
              obtain ⟨rhs, -, h⟩ := bind_eq_ok.1 h
              cases h
        · cases hp : Expr.parseAt 0 cs with
          | error failure => rw [hp] at h; cases h
          | ok parsed' =>
              rw [hp] at h
              cases h
              exact .inl ⟨parsed, (Expr.legible_of_parseAt hp).equals_not_mem, rfl, rfl⟩
  · rintro (⟨parsed, hnot, hp, rfl⟩ | ⟨left, right, lhs, rhs, rfl, hnot, hl, hr, rfl⟩)
    · rw [ofChars_of_count_ne (by simp [List.count_eq_zero.2 hnot]), hp]
      rfl
    · obtain ⟨hleft, hright⟩ := not_or.1 (mt List.mem_append.2 hnot)
      simp [ofChars_sides hleft hright, (Expr.legible_of_parseAt hl).not_all_isBlank,
        (Expr.legible_of_parseAt hr).not_all_isBlank, hl, hr]

end Statement

namespace Normalize
open Token (NotBoth)

variable {cs : List Char}

theorem trim_trim (cs : List Char) : Text.trim (Text.trim cs) = Text.trim cs := by
  refine trim_eq_self.2 ⟨dropWhile_eq_self.2 fun c hc => ?_, ?_⟩
  · obtain ⟨gap, -, hcs⟩ := Text.exists_trimRight (Text.trimLeft cs)
    rw [Text.trim, Option.mem_def] at hc
    have hnot := List.head?_dropWhile_not Text.isBlank cs
    rw [← Text.trimLeft, hcs, List.head?_append, hc] at hnot
    exact hnot
  · simp only [Text.trim, Text.trimRight, Text.dropTailWhile, List.reverse_reverse,
      List.dropWhile_idempotent]

theorem normalizeChars_trim (cs : List Char) :
    normalizeChars (Text.trim cs) = normalizeChars cs := by
  rw [normalizeChars, strip, trim_trim, normalizeChars, strip]

/-- A rule that asks for a name does not apply where there is none. -/
theorem idle_of_not_mem {rule : Text.Rule} (name : List Char) (hname : '\\' ∈ name)
    (hrule : ∀ cs, name.isPrefixOf cs = false → rule cs = none) (h : '\\' ∉ cs) :
    Text.Idle rule cs := by
  intro rest hs
  refine hrule rest (Bool.eq_false_iff.2 fun hp => ?_)
  exact h (hs.subset ((List.isPrefixOf_iff_prefix.1 hp).subset hname))

theorem normal_of_forall (hprompt : afterPrompt? cs = none)
    (hmarks : ∀ c ∈ '\\' :: marks, c ≠ '=' → c ∉ cs) (hlast : ∀ c ∈ cs.getLast?, c ≠ '=')
    (hchain : cs.IsChain (NotBoth '*')) : Normal cs where
  head c hc he := hmarks '$' (by decide) (by decide) (List.mem_of_head? (he ▸ hc))
  last c hc hm := by
    have hall : ['$', '?', '='] ⊆ '\\' :: marks := by decide
    exact hmarks c (hall hm) (hlast c hc) (List.mem_of_getLast? hc)
  prompt := hprompt
  symbols symbol hs hi := by
    have hall : ∀ symbol ∈ symbols, ¬ symbol.1.toList.IsChain (NotBoth '*') ∨
        symbol.1.toList.any fun c => ('\\' :: marks).contains c && c != '=' := by
      decide
    obtain hstars | hmark := hall symbol hs
    · refine hstars ?_
      exact List.IsChain.infix hchain hi
    · obtain ⟨c, hc, hm⟩ := List.any_eq_true.1 hmark
      rw [Bool.and_eq_true, List.contains_iff_mem, bne_iff_ne] at hm
      exact hmarks c hm.1 hm.2 (hi.subset hc)
  fraction := idle_of_not_mem "\\frac".toList (by decide)
    (fun cs hp => by simp only [Latex.fraction, hp, Bool.false_eq_true, if_false])
    (hmarks _ (by decide) (by decide))
  root := idle_of_not_mem "\\sqrt".toList (by decide)
    (fun cs hp => by simp only [Latex.root, hp, Bool.false_eq_true, if_false])
    (hmarks _ (by decide) (by decide))

end Normalize

namespace Statement
open Token (NotBoth)

variable {cs : List Char} {statement : Statement}

/-- Of what is replaced, a statement can have its own sign and the letter π. -/
theorem not_mem_of_ofChars (h : ofChars cs = .ok statement) :
    ∀ c ∈ '\\' :: Normalize.marks, c ≠ '=' → c ≠ 'π' → c ∉ cs := by
  have hall : ('\\' :: Normalize.marks).all fun c =>
      c == '=' || c == 'π' || !(Text.isBlank c || Token.isPart c) := by decide +kernel
  intro c hm heq hpi hc
  have hnot : ¬(Text.isBlank c ∨ Token.isPart c) := by
    simpa [heq, hpi] using List.all_eq_true.1 hall c hm
  cases ofChars_eq_ok_iff.1 h with
  | inl he =>
      obtain ⟨parsed, -, hp, -⟩ := he
      exact hnot ((Expr.legible_of_parseAt hp).parts c hc)
  | inr he =>
      obtain ⟨left, right, lhs, rhs, rfl, -, hl, hr, -⟩ := he
      cases List.mem_append.1 hc with
      | inl hc => exact hnot ((Expr.legible_of_parseAt hl).parts c hc)
      | inr hc =>
          cases List.mem_cons.1 hc with
          | inl he => exact heq he
          | inr hc => exact hnot ((Expr.legible_of_parseAt hr).parts c hc)

theorem isChain_of_ofChars (h : ofChars cs = .ok statement) : cs.IsChain (NotBoth '*') := by
  cases ofChars_eq_ok_iff.1 h with
  | inl he =>
      obtain ⟨parsed, -, hp, -⟩ := he
      exact (Expr.legible_of_parseAt hp).chain
  | inr he =>
      obtain ⟨left, right, lhs, rhs, rfl, -, hl, hr, -⟩ := he
      have hright : (['='] ++ right).IsChain (NotBoth '*') :=
        Token.isChain_append_of_not_mem (by decide) (Expr.legible_of_parseAt hr).chain
      refine List.isChain_append.2 ⟨(Expr.legible_of_parseAt hl).chain, hright, ?_⟩
      rintro c - _ ⟨⟩ ⟨-, he⟩
      exact absurd he (by decide)

/-- Without the blanks around it a statement is the same one, and it does not end in its
sign. -/
theorem ofChars_trim (h : ofChars cs = .ok statement) :
    ofChars (Text.trim cs) = .ok statement ∧ ∀ c ∈ (Text.trim cs).getLast?, c ≠ '=' := by
  cases ofChars_eq_ok_iff.1 h with
  | inl he =>
      obtain ⟨parsed, hnot, hp, rfl⟩ := he
      have hnot' : '=' ∉ Text.trim cs := fun hm => hnot ((Text.trim_infix cs).subset hm)
      have hp' := Expr.parseAt_congr 0 (Token.kinds?_trim cs) hp
      refine ⟨ofChars_eq_ok_iff.2 (.inl ⟨parsed, hnot', hp', rfl⟩), fun c hc he => ?_⟩
      exact hnot' (he ▸ List.mem_of_getLast? hc)
  | inr he =>
      obtain ⟨left, right, lhs, rhs, rfl, hnot, hl, hr, rfl⟩ := he
      have hr' := Expr.parseAt_trimRight hr ((Text.trimLeft left).length + 1)
      have hsublist : (Text.trimLeft left ++ Text.trimRight right).Sublist (left ++ right) :=
        (List.dropWhile_sublist _).append (Normalize.sublist_dropTailWhile _ _)
      have hnot' : '=' ∉ Text.trimLeft left ++ Text.trimRight right :=
        fun hm => hnot (hsublist.subset hm)
      rw [Text.trim_append_cons (by decide)]
      refine ⟨ofChars_eq_ok_iff.2 (.inr ⟨_, _, lhs, rhs, rfl, hnot', Expr.parseAt_trimLeft hl 0,
        hr', rfl⟩), fun c hc he => ?_⟩
      obtain ⟨d, hd, -⟩ := (Expr.legible_of_parseAt hr').solid
      have hlast := List.getLast?_eq_some_getLast (List.ne_nil_of_mem hd)
      rw [List.getLast?_append, List.getLast?_cons, hlast] at hc
      refine hnot' (List.mem_append_right _ (List.mem_of_getLast? (hlast.trans ?_)))
      rw [← he]
      exact hc

end Statement

/-- Normalising leaves a text that is read as a statement as it is, but for the blanks around
it, unless it begins with a prompt or holds the letter π; and what is left is read as the
same statement. -/
theorem normalize_of_parse {text : String} {statement : Statement}
    (h : Statement.parse text = .ok statement) (hpi : 'π' ∉ text.toList)
    (hprompt : Normalize.afterPrompt? (Text.trim text.toList) = none) :
    normalize text = String.ofList (Text.trim text.toList) ∧
      Statement.parse (normalize text) = .ok statement := by
  obtain ⟨htrim, hlast⟩ := Statement.ofChars_trim h
  have hmarks : ∀ c ∈ '\\' :: Normalize.marks, c ≠ '=' → c ∉ Text.trim text.toList := by
    intro c hm heq hc
    have hmem := (Text.trim_infix text.toList).subset hc
    by_cases he : c = 'π'
    · exact hpi (he ▸ hmem)
    · exact Statement.not_mem_of_ofChars h c hm heq he hmem
  have hchain : (Text.trim text.toList).IsChain (Token.NotBoth '*') :=
    List.IsChain.infix (Statement.isChain_of_ofChars h) (Text.trim_infix text.toList)
  have hnormal : Normalize.normalizeChars (Text.trim text.toList) = Text.trim text.toList :=
    Normalize.normalizeChars_eq_self_iff.2
      ⟨Normalize.trim_trim _, Normalize.normal_of_forall hprompt hmarks hlast hchain⟩
  have heq : normalize text = String.ofList (Text.trim text.toList) := by
    rw [normalize, ← Normalize.normalizeChars_trim, hnormal]
  refine ⟨heq, ?_⟩
  rw [heq, Statement.parse, String.toList_ofList]
  exact htrim

/-- Letters of any alphabet and a `*` next to blanks are kept. -/
theorem normalize_of_parse_equation :
    let text := "\u2003 naïve_2*δ^x! =\tsqrt([ℵ, .5e2])* y\n"
    ∃ statement, Statement.parse text = .ok statement ∧
      normalize text = "naïve_2*δ^x! =\tsqrt([ℵ, .5e2])* y" ∧
      Statement.parse (normalize text) = .ok statement := by
  intro text
  have hread : (Statement.parse text).isOk := by decide +kernel
  cases h : Statement.parse text with
  | error failure =>
      rw [h] at hread
      cases hread
  | ok statement =>
      obtain ⟨hkept, hagain⟩ := normalize_of_parse h (by decide +kernel) (by decide +kernel)
      have htrim : String.ofList (Text.trim text.toList) =
          "naïve_2*δ^x! =\tsqrt([ℵ, .5e2])* y" := by decide +kernel
      exact ⟨statement, rfl, hkept.trans htrim, hagain⟩

end Reckon
