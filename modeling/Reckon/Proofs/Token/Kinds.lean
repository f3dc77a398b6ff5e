import Mathlib.Data.List.Chain
import Mathlib.Data.List.Infix
import Reckon.Proofs.Expr.Recognition
import Reckon.Proofs.Token.Parentheses

/-!
What a text is cut into, wherever it begins: the kinds of its tokens, without their
positions. Blanks around a text do not change them, and they alone decide what the text
is read as. Which kinds there are is not looked at, but for the characters that no token
has and for stars, each of which is a token of its own.
-/

namespace Reckon

theorem takeWhile_append_of_head {p : Char → Bool} {gap : List Char}
    (hg : ∀ c ∈ gap.head?, p c = false) (cs : List Char) :
    (cs ++ gap).takeWhile p = cs.takeWhile p := by
  have hgap : gap.takeWhile p = [] := by
    cases gap with
    | nil => rfl
    | cons c gap => simp [hg c rfl]
  rw [List.takeWhile_append, hgap, List.append_nil]
  split
  · rename_i h
    exact ((List.takeWhile_prefix p).eq_of_length h).symm
  · rfl

namespace Numeral
variable {c : Char} {gap : List Char}

/-- What ends a numeral that has not come to the sign of its exponent, too. -/
def Ends (rest : List Char) : Prop := Stops rest ∧ ∀ c ∈ rest.head?, c ≠ '+' ∧ c ≠ '-'

theorem Scale.read?_cons_cons (mark sign : Char) (rest : List Char) :
    read? (mark :: sign :: rest) =
      if mark = 'e' ∨ mark = 'E' then
        let digits :=
          (if sign = '+' ∨ sign = '-' then rest else sign :: rest).takeWhile Char.isDigit
        if digits = [] then none
        else some ⟨mark, if sign = '+' ∨ sign = '-' then [sign] else [], digits⟩
      else none := by
  unfold read?
  dsimp only
  split
  · split
    · rename_i he
      rw [(List.cons.inj he).1]
      simp
    · rename_i he
      rw [(List.cons.inj he).1]
      simp
    · rename_i hplus hminus
      have hsign : ¬ (sign = '+' ∨ sign = '-') := by
        rintro (rfl | rfl)
        · exact hplus _ rfl
        · exact hminus _ rfl
      rw [if_neg hsign, if_neg hsign]
      rfl
  · rfl

theorem Scale.read?_append (hg : Ends gap) (cs : List Char) :
    read? (cs ++ gap) = read? cs := by
  obtain ⟨hstops, hsign⟩ := hg
  match cs with
  | [] => exact read?_of_stops hstops
  | [mark] =>
      cases gap with
      | nil => rfl
      | cons c gap =>
          obtain ⟨hdigit, -⟩ := hstops c rfl
          have hnone : ¬ (c = '+' ∨ c = '-') := not_or.2 (hsign c rfl)
          rw [List.singleton_append, read?_cons_cons, if_neg hnone, List.takeWhile_cons, hdigit]
          rfl
  | mark :: sign :: rest =>
      have hdigits (ds : List Char) :
          (ds ++ gap).takeWhile Char.isDigit = ds.takeWhile Char.isDigit :=
        takeWhile_append_of_head (fun c hc => (hstops c hc).1) ds
      rw [List.cons_append, List.cons_append, read?_cons_cons, read?_cons_cons]
      split_ifs <;> simp only [← List.cons_append, hdigits]

theorem read_append (hg : Ends gap) (cs : List Char) : read (cs ++ gap) = read cs := by
  have hdigits (ds : List Char) :
      (ds ++ gap).takeWhile Char.isDigit = ds.takeWhile Char.isDigit :=
    takeWhile_append_of_head (fun c hc => (hg.1 c hc).1) ds
  have hprefix := List.takeWhile_prefix (l := cs) Char.isDigit
  have hdrop : (cs ++ gap).drop (cs.takeWhile Char.isDigit).length =
      cs.drop (cs.takeWhile Char.isDigit).length ++ gap :=
    List.drop_append_of_le_length hprefix.length_le
  simp only [read, hdigits, ← List.drop_drop, hdrop]
  generalize cs.drop (cs.takeWhile Char.isDigit).length = rest
  by_cases hpoint : ∃ behind, rest = '.' :: behind
  · obtain ⟨behind, rfl⟩ := hpoint
    have hle := (List.takeWhile_prefix (l := behind) Char.isDigit).length_le
    have hbehind : (behind ++ gap).drop (behind.takeWhile Char.isDigit).length =
        behind.drop (behind.takeWhile Char.isDigit).length ++ gap :=
      List.drop_append_of_le_length hle
    simp only [List.cons_append, hdigits, Option.elim_some, List.drop_succ_cons, hbehind,
      Scale.read?_append hg]
  · have hrest : ∀ behind, rest ++ gap ≠ '.' :: behind := by
      intro behind he
      cases rest with
      | nil => exact (hg.1 '.' (by rw [← List.nil_append gap, he]; rfl)).2.1 rfl
      | cons c rest => exact hpoint ⟨rest, by rw [(List.cons.inj he).1]⟩
    split
    · rename_i behind he
      exact absurd he (hrest behind)
    · split
      · exact absurd ⟨_, rfl⟩ hpoint
      · simp only [Option.elim_none, List.drop_zero, Scale.read?_append hg]

end Numeral

namespace Token

/-- The kinds of the tokens of a text whose first characters still belong to the token in
front of it. -/
def kinds? (pending : Nat) : List Char → Option (List Kind)
  | [] => some []
  | c :: rest =>
    match pending with
    | more + 1 => kinds? more rest
    | 0 =>
      if Text.isBlank c then kinds? 0 rest
      else match lexeme c rest with
        | .error _ => none
        | .ok (kind, more) => (kinds? more rest).map (kind :: ·)

variable {c : Char} {cs rest gap : List Char} {kind : Kind} {kinds : List Kind}
  {pending position : Nat}

theorem kinds?_of_isBlank (hc : Text.isBlank c) (cs : List Char) :
    kinds? 0 (c :: cs) = kinds? 0 cs := by
  rw [kinds?, if_pos hc]

/-- A token of a text that can be cut, and what is behind it. -/
theorem kinds?_cons (hc : Text.isBlank c = false) (h : kinds? 0 (c :: rest) = some kinds) :
    ∃ kind more kinds', lexeme c rest = .ok (kind, more) ∧ kinds? more rest = some kinds' ∧
      kinds = kind :: kinds' := by
  rw [kinds?, hc, if_neg (by decide)] at h
  split at h
  · cases h
  · rename_i kind more hk
    obtain ⟨kinds', hk', rfl⟩ := Option.map_eq_some_iff.1 h
    exact ⟨kind, more, kinds', hk, hk', rfl⟩

theorem scan_map_kind (pending position : Nat) (found : List Token) (cs : List Char) :
    (scan pending position found cs).toOption.map (·.map Token.kind) =
      (kinds? pending cs).map fun kinds =>
        (found.map Token.kind).reverse ++ (kinds ++ [.stop]) := by
  induction cs generalizing pending position found with
  | nil => simp [scan, kinds?, Except.toOption]
  | cons c rest ih =>
      cases pending with
      | succ more => exact ih more (position + 1) found
      | zero =>
          simp only [scan, kinds?]
          split
          · exact ih 0 (position + 1) found
          · cases hk : lexeme c rest with
            | error fault => rfl
            | ok result =>
                obtain ⟨kind, more⟩ := result
                dsimp only
                rw [ih more (position + 1) (⟨kind, position⟩ :: found), Option.map_map]
                simp [Function.comp_def]

/-- The tokens of a text are of these kinds, and the last one is its end. -/
theorem kinds?_of_ofChars {tokens : List Token} (h : ofChars position cs = .ok tokens) :
    ∃ kinds, kinds? 0 cs = some kinds ∧ tokens.map Token.kind = kinds ++ [.stop] := by
  have hscan := scan_map_kind 0 position [] cs
  rw [ofChars] at h
  rw [h] at hscan
  obtain ⟨kinds, hk, he⟩ := Option.map_eq_some_iff.1 hscan.symm
  exact ⟨kinds, hk, he.symm⟩

theorem ofChars_of_kinds? (h : kinds? 0 cs = some kinds) (position : Nat) :
    ∃ tokens, ofChars position cs = .ok tokens ∧ tokens.map Token.kind = kinds ++ [.stop] := by
  have hscan := scan_map_kind 0 position [] cs
  rw [h] at hscan
  cases hs : scan 0 position [] cs with
  | error failure =>
      rw [hs] at hscan
      cases hscan
  | ok tokens =>
      rw [hs] at hscan
      exact ⟨tokens, hs, Option.some.inj hscan⟩

/-- Every token takes a character. -/
theorem length_le_of_kinds? (h : kinds? pending cs = some kinds) : kinds.length ≤ cs.length := by
  induction cs generalizing pending kinds with
  | nil =>
      obtain rfl := Option.some.inj h
      exact le_rfl
  | cons c rest ih =>
      cases pending with
      | succ more => exact (ih h).trans (Nat.le_succ _)
      | zero =>
          by_cases hc : Text.isBlank c
          · rw [kinds?_of_isBlank hc] at h
            exact (ih h).trans (Nat.le_succ _)
          · obtain ⟨kind, more, kinds', -, hrest, rfl⟩ := kinds?_cons (Bool.eq_false_iff.2 hc) h
            exact Nat.succ_le_succ (ih hrest)

theorem length_le_of_ofChars {tokens : List Token} (h : ofChars position cs = .ok tokens) :
    tokens.length ≤ cs.length + 1 := by
  obtain ⟨kinds, hk, hkinds⟩ := kinds?_of_ofChars h
  have hlength : tokens.length = kinds.length + 1 := by
    simpa using congrArg List.length hkinds
  rw [hlength]
  exact Nat.succ_le_succ (length_le_of_kinds? hk)

section Blanks

theorem kinds?_gap (hg : ∀ c ∈ gap, Text.isBlank c) (cs : List Char) :
    kinds? 0 (gap ++ cs) = kinds? 0 cs := by
  induction gap with
  | nil => rfl
  | cons c gap ih =>
      obtain ⟨hc, hgap⟩ := List.forall_mem_cons.1 hg
      rw [List.cons_append, kinds?_of_isBlank hc, ih hgap]

theorem kinds?_of_forall_isBlank (hg : ∀ c ∈ gap, Text.isBlank c) (pending : Nat) :
    kinds? pending gap = some [] := by
  induction gap generalizing pending with
  | nil => rfl
  | cons c gap ih =>
      obtain ⟨hc, hgap⟩ := List.forall_mem_cons.1 hg
      cases pending with
      | zero => rw [kinds?_of_isBlank hc, ih hgap]
      | succ more => exact ih hgap more

theorem separate_of_isBlank (hg : ∀ c ∈ gap, Text.isBlank c) : Separate gap :=
  fun c hc => separates_of_isBlank (hg c (List.mem_of_head? hc))

theorem numeral_ends_of_isBlank (hg : ∀ c ∈ gap, Text.isBlank c) : Numeral.Ends gap := by
  refine ⟨(separate_of_isBlank hg).stops, fun c hc => ?_⟩
  have hblank := hg c (List.mem_of_head? hc)
  constructor
  · rintro rfl
    exact absurd hblank (by decide)
  · rintro rfl
    exact absurd hblank (by decide)

theorem lexeme_append (hg : ∀ c ∈ gap, Text.isBlank c) (c : Char) (rest : List Char) :
    lexeme c (rest ++ gap) = lexeme c rest := by
  have hseparate := separate_of_isBlank hg
  have hread := Numeral.read_append (numeral_ends_of_isBlank hg) (c :: rest)
  have hname :
      (rest ++ gap).takeWhile continuesIdentifier = rest.takeWhile continuesIdentifier := by
    refine takeWhile_append_of_head (fun d hd => ?_) rest
    have hs := hseparate d hd
    simp only [separates, Bool.and_eq_true, Bool.not_eq_true'] at hs
    exact hs.1
  have hstarts : Numeral.starts (c :: (rest ++ gap)) = Numeral.starts (c :: rest) := by
    by_cases hpoint : c = '.'
    · subst hpoint
      cases rest with
      | cons d rest => rfl
      | nil =>
          cases gap with
          | nil => rfl
          | cons d gap => exact (hseparate.stops d rfl).1
    · rw [starts_cons hpoint, starts_cons hpoint]
  rw [List.cons_append] at hread
  simp only [lexeme, hstarts, hread, hname]

/-- Blanks behind a text are in no token of it. -/
theorem kinds?_append (hg : ∀ c ∈ gap, Text.isBlank c) (pending : Nat) (cs : List Char) :
    kinds? pending (cs ++ gap) = kinds? pending cs := by
  induction cs generalizing pending with
  | nil => exact kinds?_of_forall_isBlank hg pending
  | cons c rest ih =>
      cases pending with
      | succ more => exact ih more
      | zero => simp only [List.cons_append, kinds?, lexeme_append hg, ih]

end Blanks

section Characters

/-- Whether there are tokens with the character in them. -/
def isPart (c : Char) : Bool :=
  continuesIdentifier c || c == '.' || (Kind.ofChar? c).isSome

theorem isPart_of_isDigit (hc : c.isDigit) : isPart c ∧ c ≠ '*' := by
  refine ⟨by simp [isPart, continuesIdentifier_of_isDigit hc], ?_⟩
  rintro rfl
  exact absurd hc (by decide)

theorem isPart_of_startsIdentifier (hc : startsIdentifier c) : isPart c := by
  rw [startsIdentifier, Bool.or_eq_true] at hc
  cases hc with
  | inl ha => simp [isPart, continuesIdentifier, Text.isAlphanumeric, ha]
  | inr hu => simp [isPart, continuesIdentifier, hu]

/-- The characters that a token takes. Only a star takes a star. -/
theorem lexeme_part {more : Nat} (h : lexeme c rest = .ok (kind, more)) :
    (∀ d ∈ c :: rest.take more, isPart d) ∧
      (c = '*' ∧ kind = .star ∧ more = 0 ∨ '*' ∉ c :: rest.take more) := by
  unfold lexeme at h
  split at h
  · rename_i hstarts
    dsimp only at h
    split at h
    · cases h
    · simp only [Except.ok.injEq, Prod.mk.injEq] at h
      obtain ⟨-, rfl⟩ := h
      have hpart : ∀ d ∈ c :: rest.take ((Numeral.read (c :: rest)).text.length - 1),
          isPart d ∧ d ≠ '*' := by
        refine List.forall_mem_cons.2 ⟨?_, fun d hd => ?_⟩
        · by_cases hpoint : c = '.'
          · rw [hpoint]
            decide
          · rw [starts_cons hpoint] at hstarts
            exact isPart_of_isDigit hstarts
        · have hall : ['.', 'e', 'E', '+', '-'].all fun d => isPart d && d != '*' := by decide
          cases Numeral.isDigit_or_mem_of_read _ d (Numeral.mem_text_of_mem_take hd) with
          | inl hdigit => exact isPart_of_isDigit hdigit
          | inr hm =>
              have hd := List.all_eq_true.1 hall d hm
              rwa [Bool.and_eq_true, bne_iff_ne] at hd
      exact ⟨fun d hd => (hpart d hd).1, .inr fun hm => (hpart _ hm).2 rfl⟩
  · split at h
    · rename_i hi
      simp only [Except.ok.injEq, Prod.mk.injEq] at h
      obtain ⟨-, rfl⟩ := h
      rw [← List.prefix_iff_eq_take.1 (List.takeWhile_prefix _)]
      have hcontinues :=
        List.all_eq_true.1 (List.all_takeWhile (l := rest) (p := continuesIdentifier))
      refine ⟨List.forall_mem_cons.2 ⟨isPart_of_startsIdentifier hi, fun d hd => ?_⟩, .inr ?_⟩
      · simp [isPart, hcontinues d hd]
      · intro hm
        cases List.mem_cons.1 hm with
        | inl he => exact absurd hi (by rw [← he]; decide)
        | inr hm => exact absurd (hcontinues _ hm) (by decide)
    · split at h
      · rename_i kind' hk
        simp only [Except.ok.injEq, Prod.mk.injEq] at h
        obtain ⟨rfl, rfl⟩ := h
        refine ⟨by simp [isPart, hk], ?_⟩
        by_cases hstar : c = '*'
        · subst hstar
          exact .inl ⟨rfl, (Option.some.inj hk).symm, rfl⟩
        · exact .inr (by simpa using Ne.symm hstar)
      · cases h

/-- Every character of a text that can be cut is a blank or belongs to a token. -/
theorem isBlank_or_isPart (h : kinds? pending cs = some kinds) :
    ∀ c ∈ cs.drop pending, Text.isBlank c ∨ isPart c := by
  induction cs generalizing pending kinds with
  | nil => simp
  | cons c rest ih =>
      cases pending with
      | succ more => exact ih h
      | zero =>
          by_cases hc : Text.isBlank c
          · rw [kinds?_of_isBlank hc] at h
            exact List.forall_mem_cons.2 ⟨.inl hc, ih h⟩
          · obtain ⟨kind, more, kinds', hk, hrest, -⟩ := kinds?_cons (Bool.eq_false_iff.2 hc) h
            rw [List.drop_zero, ← List.take_append_drop more rest, ← List.cons_append]
            exact List.forall_mem_append.2 ⟨fun d hd => .inr ((lexeme_part hk).1 d hd), ih hrest⟩

/-- Not both are the same given thing. -/
def NotBoth {α : Type} (a : α) (x y : α) : Prop := ¬ (x = a ∧ y = a)

instance {α : Type} [DecidableEq α] (a : α) : DecidableRel (NotBoth a) :=
  fun _ _ => inferInstanceAs (Decidable (¬ (_ ∧ _)))

theorem isChain_append_of_not_mem {α : Type} {a : α} {xs ys : List α} (hx : a ∉ xs)
    (hy : ys.IsChain (NotBoth a)) : (xs ++ ys).IsChain (NotBoth a) := by
  induction xs with
  | nil => exact hy
  | cons x xs ih =>
      obtain ⟨hne, hxs⟩ := not_or.1 (mt List.mem_cons.2 hx)
      exact List.isChain_cons.2 ⟨fun _ _ h => hne h.1.symm, ih hxs⟩

/-- Where no two tokens in a row are stars, no two characters in a row are. -/
theorem isChain_of_kinds? (h : kinds? pending cs = some kinds)
    (hk : kinds.IsChain (NotBoth .star)) : (cs.drop pending).IsChain (NotBoth '*') := by
  induction cs generalizing pending kinds with
  | nil => simp
  | cons c rest ih =>
      cases pending with
      | succ more => exact ih h hk
      | zero =>
          by_cases hc : Text.isBlank c
          · rw [kinds?_of_isBlank hc] at h
            have hstar : '*' ∉ [c] := by
              intro hm
              rw [← List.mem_singleton.1 hm] at hc
              exact absurd hc (by decide)
            exact isChain_append_of_not_mem hstar (ih h hk)
          · obtain ⟨kind, more, kinds', hlex, hrest, rfl⟩ := kinds?_cons (Bool.eq_false_iff.2 hc) h
            obtain ⟨hhead, htail⟩ := List.isChain_cons.1 hk
            have hchain := ih hrest htail
            cases (lexeme_part hlex).2 with
            | inl hstar =>
                obtain ⟨rfl, rfl, rfl⟩ := hstar
                refine List.isChain_cons.2 ⟨fun d hd hboth => ?_, hchain⟩
                obtain ⟨-, rfl⟩ := hboth
                obtain ⟨behind, rfl⟩ := List.head?_eq_some_iff.1 hd
                obtain ⟨kind', more', kinds'', hlex', -, rfl⟩ := kinds?_cons (by decide) hrest
                rw [(lexeme_of_ofChar (c := '*') rfl behind).2] at hlex'
                cases hlex'
                exact hhead _ rfl ⟨rfl, rfl⟩
            | inr hnot =>
                rw [List.drop_zero, ← List.take_append_drop more rest, ← List.cons_append]
                exact isChain_append_of_not_mem hnot hchain

end Characters

end Token
end Reckon
