import Reckon.Proofs.Decimal.Shortest
import Reckon.Token.Lexer

/-!
What cutting a text into tokens can answer: numbers that are finite and have no
sign, names of their own alphabet, single characters, and the end of the text in
last place only. Nothing is said here about which texts can be cut.
-/

namespace Reckon.Token

/-- The text of a name, as the lexer takes it. -/
def IsName (cs : List Char) : Prop :=
  ∃ c rest, cs = c :: rest ∧ Text.isBlank c = false ∧ c.isDigit = false ∧
    startsIdentifier c ∧ rest.all continuesIdentifier

/-- What a token in front of the end of a text may be. -/
def Kind.Lexical : Kind → Prop
  | .number value => ∃ bits < Binary64.infinity, value = .ofMagnitude false bits
  | .identifier name => IsName name.toList
  | .stop => False
  | _ => True

theorem lexical_of_ofChar {c : Char} {kind : Kind} (h : Kind.ofChar? c = some kind) :
    kind.Lexical := by
  unfold Kind.ofChar? at h
  split at h <;> simp only [reduceCtorEq, Option.some.injEq] at h <;> subst h <;> trivial

theorem ne_point_of_startsIdentifier {c : Char} (h : startsIdentifier c) : c ≠ '.' := by
  rintro rfl
  revert h
  decide

theorem starts_cons {c : Char} (hc : c ≠ '.') (rest : List Char) :
    Numeral.starts (c :: rest) = c.isDigit := by
  unfold Numeral.starts
  split <;> simp_all

theorem lexeme_lexical {c : Char} {rest : List Char} {kind : Kind} {more : Nat}
    (hc : Text.isBlank c = false) (h : lexeme c rest = .ok (kind, more)) : kind.Lexical := by
  unfold lexeme at h
  split at h
  · dsimp only at h
    split at h
    · cases h
    · rename_i hb
      simp only [Except.ok.injEq, Prod.mk.injEq] at h
      obtain ⟨rfl, -⟩ := h
      exact ⟨_, Nat.lt_of_le_of_ne (Decimal.bits_le _) hb, rfl⟩
  · rename_i hs
    split at h
    · rename_i hi
      simp only [Except.ok.injEq, Prod.mk.injEq] at h
      obtain ⟨rfl, -⟩ := h
      rw [starts_cons (ne_point_of_startsIdentifier hi), Bool.not_eq_true] at hs
      exact ⟨c, rest.takeWhile continuesIdentifier, by simp, hc, hs, hi, List.all_takeWhile⟩
    · split at h
      · rename_i kind' hk
        simp only [Except.ok.injEq, Prod.mk.injEq] at h
        obtain ⟨rfl, -⟩ := h
        exact lexical_of_ofChar hk
      · cases h

/-- The end of the text is the last token, and each token in front of it is lexical. -/
theorem scan_lexical {pending position : Nat} {found tokens : List Token} {cs : List Char}
    (hf : ∀ t ∈ found, t.kind.Lexical) (h : scan pending position found cs = .ok tokens) :
    ∃ front, tokens = front ++ [⟨.stop, position + cs.length⟩] ∧
      ∀ t ∈ front, t.kind.Lexical := by
  induction cs generalizing pending position found with
  | nil =>
      simp only [scan, Except.ok.injEq] at h
      subst h
      exact ⟨found.reverse, by simp, by simpa using hf⟩
  | cons c rest ih =>
      have hlen : position + (c :: rest).length = position + 1 + rest.length := by
        simp only [List.length_cons]
        omega
      rw [hlen]
      cases pending with
      | succ more => exact ih hf h
      | zero =>
          simp only [scan] at h
          split at h
          · exact ih hf h
          · rename_i hb
            split at h
            · cases h
            · rename_i kind more hk
              refine ih (fun t hm => ?_) h
              obtain rfl | hm := List.mem_cons.1 hm
              · exact lexeme_lexical (by simpa using hb) hk
              · exact hf t hm

theorem ofChars_lexical {position : Nat} {cs : List Char} {tokens : List Token}
    (h : ofChars position cs = .ok tokens) :
    ∃ front, tokens = front ++ [⟨.stop, position + cs.length⟩] ∧
      ∀ t ∈ front, t.kind.Lexical :=
  scan_lexical (by simp) h

theorem lexical_of_ofChars {position : Nat} {cs : List Char} {tokens : List Token}
    (h : ofChars position cs = .ok tokens) :
    ∀ k ∈ tokens.dropLast.map Token.kind, k.Lexical := by
  obtain ⟨front, rfl, hfront⟩ := ofChars_lexical h
  simpa using hfront

end Reckon.Token
