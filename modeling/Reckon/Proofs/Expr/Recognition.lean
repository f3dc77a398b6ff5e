import Reckon.Proofs.Expr.Completeness
import Reckon.Proofs.Token.Lexical

/-!
The descent recognises the grammar: the tokens of a text are read as a tree exactly
when they are a phrase for it and it is low enough. Hence a text has at most one
tree. Which texts can be cut into tokens is not a matter of the grammar.
-/

namespace Reckon.Grammar
open Reckon.Parser

variable {e : Expr}

theorem peek_front {front : List Token} {t : Token} (hf : ∀ t ∈ front, t.kind ≠ .stop)
    (hne : front ≠ []) : peek (front ++ [t]) ≠ .stop := by
  cases front with
  | nil => exact absurd rfl hne
  | cons t' front => exact hf t' (by simp)

/-- What stands in front of the first end is determined. -/
theorem front_unique {front front' rest : List Token} {t : Token}
    (h : front ++ [t] = front' ++ rest) (hf : ∀ t ∈ front, t.kind ≠ .stop)
    (hf' : ∀ t ∈ front', t.kind ≠ .stop) (ht : t.kind = .stop) (hr : peek rest = .stop) :
    front' = front := by
  induction front generalizing front' with
  | nil =>
      cases front' with
      | nil => rfl
      | cons t' front' =>
          simp only [List.nil_append, List.cons_append, List.cons.injEq] at h
          exact absurd (h.1 ▸ ht) (hf' t' (by simp))
  | cons u front ih =>
      cases front' with
      | nil =>
          simp only [List.nil_append] at h
          subst h
          exact absurd hr (hf u (by simp))
      | cons t' front' =>
          simp only [List.cons_append, List.cons.injEq] at h
          rw [ih h.2 (fun t hm => hf t (List.mem_cons_of_mem _ hm))
            (fun t hm => hf' t (List.mem_cons_of_mem _ hm)), h.1]

theorem expression_eq_ok_iff {front : List Token} {t : Token} {node : Subtree}
    (ht : t.kind = .stop) (hf : ∀ t ∈ front, t.kind ≠ .stop) :
    expression (front ++ [t]) = .ok node ↔
      Derives 255 .sum 0 (front.map (·.kind)) node.expr ∧
        node.height = node.expr.height ∧ node.height ≤ maxHeight := by
  constructor
  · intro h
    unfold expression at h
    split at h
    · cases h
    · obtain ⟨⟨node', rest⟩, hs, h⟩ := bind_eq_ok.1 h
      dsimp only at h
      split at h
      · rename_i hr
        cases h
        have hsound : Sound 255 .sum 0 (sums (unary maxNesting)) :=
          sums_sound (unary_sound (by decide))
        obtain ⟨front', hfr, d, hh⟩ := hsound _ _ _ hs
        have hne : ∀ t ∈ front', t.kind ≠ .stop := fun t hm hk =>
          d.stop_not_mem (hk ▸ List.mem_map_of_mem hm)
        rw [front_unique hfr hf hne ht hr] at d
        exact ⟨d, hh⟩
      · cases h
  · rintro ⟨d, hh, hb⟩
    have hne : front ≠ [] := by
      rintro rfl
      obtain ⟨k, rest, hk, -⟩ := d.head
      cases hk
    have hreach := d.arrives front [t] rfl (hh ▸ hb)
      (by simp [Ends, peek, ht, Form.absorbed, Form.inner])
    have hs : sums (unary maxNesting) (front ++ [t]) =
        .ok (⟨node.expr, node.expr.height⟩, [t]) :=
      sums_complete hreach (by simp [Ends, peek, ht, Form.absorbed])
    unfold expression
    rw [if_neg (peek_front hf hne), hs, ← hh]
    simp [peek, ht]

theorem parseAt_eq_ok_iff {position : Nat} {cs : List Char} {tokens : List Token}
    (h : Token.ofChars position cs = .ok tokens) :
    (∃ parsed, Expr.parseAt position cs = .ok parsed ∧ parsed.expr = e) ↔
      Derives 255 .sum 0 (tokens.dropLast.map (·.kind)) e ∧ e.height ≤ maxHeight := by
  obtain ⟨front, rfl, hl⟩ := Token.ofChars_lexical h
  have hf : ∀ t ∈ front, t.kind ≠ .stop := fun t hm hk => by
    have := hl t hm
    rw [hk] at this
    exact this
  rw [List.dropLast_concat]
  constructor
  · rintro ⟨parsed, hp, rfl⟩
    obtain ⟨tokens, ht, hp⟩ := bind_eq_ok.1 hp
    cases h.symm.trans ht
    obtain ⟨node, hn, hp⟩ := bind_eq_ok.1 hp
    cases hp
    obtain ⟨d, hh, hb⟩ := (expression_eq_ok_iff rfl hf).1 hn
    exact ⟨d, hh ▸ hb⟩
  · rintro ⟨d, hb⟩
    have hn : expression (front ++ [⟨.stop, position + cs.length⟩]) = .ok ⟨e, e.height⟩ :=
      (expression_eq_ok_iff rfl hf).2 ⟨d, rfl, hb⟩
    exact ⟨⟨e, front.length⟩, by simp [Expr.parseAt, h, hn], rfl⟩

/-- The tokens of a text are read as a tree if and only if they are a phrase for it,
no operand of which lies inside more than 255 enclosing constructs, and its height
is at most 512. There is at most one such tree. -/
theorem parse_iff_derives {position : Nat} {cs : List Char} {tokens : List Token}
    (h : Token.ofChars position cs = .ok tokens) :
    (∀ e, (∃ parsed, Expr.parseAt position cs = .ok parsed ∧ parsed.expr = e) ↔
      Derives 255 .sum 0 (tokens.dropLast.map (·.kind)) e ∧ e.height ≤ 512) ∧
    ∀ e e', Derives 255 .sum 0 (tokens.dropLast.map (·.kind)) e →
      Derives 255 .sum 0 (tokens.dropLast.map (·.kind)) e' →
      e.height ≤ 512 → e'.height ≤ 512 → e = e' := by
  refine ⟨fun e => parseAt_eq_ok_iff h, ?_⟩
  intro e e' d d' hb hb'
  obtain ⟨parsed, hp, rfl⟩ := (parseAt_eq_ok_iff h).2 ⟨d, hb⟩
  obtain ⟨parsed', hp', rfl⟩ := (parseAt_eq_ok_iff h).2 ⟨d', hb'⟩
  rw [Except.ok.inj (hp.symm.trans hp')]

theorem parse_iff_derives_signed_power :
    ∃ parsed, Expr.parseAt 0 "-x^f2!".toList = .ok parsed ∧
      parsed.expr = .neg (.binary .pow (.var "x") (.factorial (.var "f2"))) := by
  have hscan : (Token.ofChars 0 "-x^f2!".toList).toOption =
      some [⟨.minus, 0⟩, ⟨.identifier "x", 1⟩, ⟨.caret, 2⟩, ⟨.identifier "f2", 3⟩,
        ⟨.bang, 5⟩, ⟨.stop, 6⟩] := by decide +kernel
  cases h : Token.ofChars 0 "-x^f2!".toList with
  | error failure =>
      rw [h] at hscan
      cases hscan
  | ok tokens =>
      rw [h] at hscan
      cases hscan
      have hx : Derives 255 .factorial 1 [.identifier "x"] (.var "x") :=
        .ofPrimary (.var (by decide))
      have hf : Derives 255 .unary 2 [.identifier "f2", .bang] (.factorial (.var "f2")) :=
        .ofPower (by decide) (.ofFactorial (.factorial (.ofPrimary (.var (by decide)))))
      have hsum : Derives 255 .sum 0 [.minus, .identifier "x", .caret, .identifier "f2", .bang]
          (.neg (.binary .pow (.var "x") (.factorial (.var "f2")))) :=
        .ofProduct (.ofUnary (.neg (by decide) (.ofPower (by decide) (.pow hx hf))))
      exact ((parse_iff_derives h).1 _).2 ⟨hsum, by decide⟩

end Reckon.Grammar
