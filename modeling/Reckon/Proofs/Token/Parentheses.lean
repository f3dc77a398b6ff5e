import Reckon.Proofs.Token.Numerals

/-!
Opening parentheses in a text and among its tokens. Every one in the text is a token of its
own, and no other token has one among its characters. Which of them group a part of an
expression is seen on the tokens: those that no name stands directly in front of.
-/

namespace Reckon

namespace Numeral

theorem prefix_append_of_drop {xs ys cs : List Char} (hx : xs <+: cs)
    (hy : ys <+: cs.drop xs.length) : xs ++ ys <+: cs := by
  obtain ⟨rest, rfl⟩ := hx
  rw [List.drop_left] at hy
  exact (List.prefix_append_right_inj xs).2 hy

theorem Scale.prefix_text {cs : List Char} {s : Scale} (h : read? cs = some s) : s.text <+: cs := by
  unfold read? at h
  split at h
  · cases h
  · rename_i mark rest
    split at h
    · dsimp only at h
      -- the sign that is there, then whether a digit follows it
      split at h <;> split at h
      all_goals cases h
      all_goals simp [text, List.takeWhile_prefix]
    · cases h

/-- A numeral takes its characters from the head of what it is read from. -/
theorem prefix_text_read (cs : List Char) : (read cs).text <+: cs := by
  have hfraction : (read cs).fraction.elim [] ('.' :: ·) <+: cs.drop (read cs).whole.length := by
    simp only [read]
    split
    · rename_i rest heq
      rw [heq]
      exact List.cons_prefix_cons.2 ⟨rfl, List.takeWhile_prefix _⟩
    · exact List.nil_prefix
  have hlength : ((read cs).whole ++ (read cs).fraction.elim [] ('.' :: ·)).length =
      (read cs).whole.length + (read cs).fraction.elim 0 (·.length + 1) := by
    cases (read cs).fraction <;> simp
  refine prefix_append_of_drop (prefix_append_of_drop (List.takeWhile_prefix _) hfraction) ?_
  rw [hlength]
  cases hscale : (read cs).scale with
  | none => exact List.nil_prefix
  | some s => exact Scale.prefix_text hscale

theorem openParen_not_mem_text (cs : List Char) : '(' ∉ (read cs).text := by
  intro h
  obtain hd | hm := isDigit_or_mem_of_read cs '(' h
  · exact absurd hd (by decide)
  · exact absurd hm (by decide)

/-- The characters that a numeral takes behind its first one. -/
theorem mem_text_of_mem_take {c d : Char} {rest : List Char}
    (h : d ∈ rest.take ((read (c :: rest)).text.length - 1)) : d ∈ (read (c :: rest)).text := by
  have htake := List.prefix_iff_eq_take.1 (prefix_text_read (c :: rest))
  cases hlength : (read (c :: rest)).text.length with
  | zero => simp [hlength] at h
  | succ n =>
      rw [hlength, List.take_succ_cons] at htake
      rw [hlength] at h
      exact htake ▸ List.mem_cons_of_mem c h

theorem openParen_not_mem_take (c : Char) (rest : List Char) :
    '(' ∉ rest.take ((read (c :: rest)).text.length - 1) :=
  fun h => openParen_not_mem_text _ (mem_text_of_mem_take h)

end Numeral

namespace Token

theorem count_drop_eq {c : Char} {rest : List Char} {n : Nat} (hc : c ≠ '(')
    (h : '(' ∉ rest.take n) : (rest.drop n).count '(' = (c :: rest).count '(' := by
  rw [List.count_cons_of_ne hc, ← Nat.zero_add (List.count _ _), ← List.count_eq_zero.2 h,
    ← List.count_append, List.take_append_drop]

/-- A token takes an opening parenthesis from the text only if it is one. -/
theorem lexeme_openParen {c : Char} {rest : List Char} {kind : Kind} {more : Nat}
    (h : lexeme c rest = .ok (kind, more)) :
    [kind].count .openParen + (rest.drop more).count '(' = (c :: rest).count '(' := by
  unfold lexeme at h
  split at h
  · rename_i hstart
    dsimp only at h
    split at h
    · cases h
    · simp only [Except.ok.injEq, Prod.mk.injEq] at h
      obtain ⟨rfl, rfl⟩ := h
      have hc : c ≠ '(' := by
        rintro rfl
        exact absurd hstart (by rw [starts_cons (by decide)]; decide)
      exact (Nat.zero_add _).trans (count_drop_eq hc (Numeral.openParen_not_mem_take c rest))
  · split at h
    · rename_i hi
      simp only [Except.ok.injEq, Prod.mk.injEq] at h
      obtain ⟨rfl, rfl⟩ := h
      have hc : c ≠ '(' := by
        rintro rfl
        exact absurd hi (by decide)
      refine (Nat.zero_add _).trans (count_drop_eq hc fun hm => ?_)
      rw [← List.prefix_iff_eq_take.1 (List.takeWhile_prefix _)] at hm
      have hcontinues := List.all_eq_true.1 List.all_takeWhile _ hm
      exact absurd hcontinues (by decide)
    · split at h
      · rename_i kind' hk
        simp only [Except.ok.injEq, Prod.mk.injEq] at h
        obtain ⟨rfl, rfl⟩ := h
        unfold Kind.ofChar? at hk
        split at hk <;> simp only [reduceCtorEq, Option.some.injEq] at hk <;> subst hk <;>
          simp [Nat.add_comm]
      · cases h

theorem scan_openParen {pending position : Nat} {found tokens : List Token} {cs : List Char}
    (h : scan pending position found cs = .ok tokens) :
    (tokens.map Token.kind).count .openParen =
      (found.map Token.kind).count .openParen + (cs.drop pending).count '(' := by
  induction cs generalizing pending position found with
  | nil =>
      simp only [scan, Except.ok.injEq] at h
      subst h
      simp
  | cons c rest ih =>
      cases pending with
      | succ more => exact ih h
      | zero =>
          simp only [scan] at h
          split at h
          · rename_i hblank
            have hc : c ≠ '(' := by
              rintro rfl
              exact absurd hblank (by decide)
            rw [ih h, List.drop_zero, List.drop_zero, List.count_cons_of_ne hc]
          · split at h
            · cases h
            · rename_i kind more hk
              rw [ih h, List.drop_zero, ← lexeme_openParen hk, List.map_cons, List.count_cons,
                List.count_singleton]
              dsimp only
              omega

/-- The opening parentheses among the tokens are those of the text. -/
theorem count_openParen {position : Nat} {cs : List Char} {tokens : List Token}
    (h : ofChars position cs = .ok tokens) :
    (tokens.map Token.kind).count .openParen = cs.count '(' := by
  rw [scan_openParen h]
  exact Nat.zero_add _

theorem Spells.count_openParen {cs : List Char} {kinds : List Kind} (h : Spells cs kinds) :
    cs.count '(' = kinds.count .openParen := by
  obtain ⟨tokens, ht, rfl⟩ := h.ofChars 0
  rw [← Token.count_openParen ht]
  obtain ⟨front, rfl, -⟩ := ofChars_lexical ht
  simp

/-- The opening parentheses that group a part of an expression. One directly behind a name
opens the arguments of a call. -/
def groupings : List Kind → Nat
  | .identifier _ :: .openParen :: ks => groupings ks
  | .openParen :: ks => groupings ks + 1
  | _ :: ks => groupings ks
  | [] => 0

theorem groupings_cons {k : Kind} (hopen : k ≠ .openParen) (hname : ∀ name, k ≠ .identifier name)
    (ks : List Kind) : groupings (k :: ks) = groupings ks :=
  groupings.eq_3 k ks (fun name _ hk _ => hname name hk) hopen

/-- Tokens one behind the other group what each of them groups, unless a name comes to stand
in front of a parenthesis. -/
theorem groupings_append (ks : List Kind) {k : Kind} (hk : k ≠ .openParen) (ks' : List Kind) :
    groupings (ks ++ k :: ks') = groupings ks + groupings (k :: ks') := by
  induction ks using groupings.induct with
  | case1 name ks ih => exact ih
  | case2 ks ih =>
      rw [List.cons_append, groupings, ih, groupings]
      omega
  | case3 k₀ ks hcall hopen ih =>
      have hcall' : ∀ name rest, k₀ = .identifier name → ks ++ k :: ks' = .openParen :: rest →
          False := by
        intro name rest hname heq
        cases ks with
        | nil => exact hk (List.cons.inj heq).1
        | cons k₁ ks => exact hcall name ks hname (by rw [(List.cons.inj heq).1])
      rw [List.cons_append, groupings.eq_3 _ _ hcall' hopen, groupings.eq_3 _ _ hcall hopen, ih]
  | case4 => exact (Nat.zero_add _).symm

theorem groupings_joined {k : Kind} (hopen : k ≠ .openParen) (hname : ∀ name, k ≠ .identifier name)
    (ks ks' : List Kind) : groupings (ks ++ k :: ks') = groupings ks + groupings ks' := by
  rw [groupings_append ks hopen, groupings_cons hopen hname]

end Token
end Reckon
