import Reckon.Proofs.Expr.Nesting

/-!
What is read from a text is read again from its own text. The two halves meet at
the grammar: a phrase tells what the tree prints as, and the printed tokens are a
phrase inside no more enclosing constructs.
-/

namespace Reckon.Grammar
open Reckon.Expr

variable {limit limit' depth : Nat} {form : Form} {ks : List Token.Kind} {e : Expr}

/-- What was read from tokens is printed within any limit that its nesting leaves. -/
theorem Derives.printsWithin (h : Derives limit form depth ks e) (hk : ∀ k ∈ ks, k.Lexical) :
    PrintsWithin limit' e := by
  induction h with
  | ofProduct _ ih | ofUnary _ ih | ofPower _ _ ih | ofFactorial _ ih | ofPrimary _ ih =>
      exact ih hk
  | add _ _ ihl ihr | sub _ _ ihl ihr | mul _ _ ihl ihr | div _ _ ihl ihr | pow _ _ ihl ihr =>
      obtain ⟨hl, hr⟩ := List.forall_mem_append.1 hk
      exact (ihl hl).binary _ (ihr (List.forall_mem_cons.1 hr).2)
  | neg _ _ ih => exact (ih (List.forall_mem_cons.1 hk).2).neg
  | factorial _ ih => exact (ih (List.forall_mem_append.1 hk).1).factorial
  | number value => exact printsWithin_number (hk _ (by simp))
  | var hn => exact printsWithin_var (hk _ (by simp)) hn
  | call hf _ ih =>
      apply PrintsWithin.call hf (hk _ (by simp))
      rw [List.forall_mem_map]
      exact fun entry he =>
        ih entry he fun k hm => hk k (by simp [mem_separated_of_mem (List.mem_map_of_mem he) hm])
  | group _ ih => exact ih fun k hm => hk k (by simp [hm])
  | list _ ih =>
      apply PrintsWithin.list
      rw [List.forall_mem_map]
      exact fun entry he =>
        ih entry he fun k hm => hk k (by simp [mem_separated_of_mem (List.mem_map_of_mem he) hm])

/-- The printed tree keeps within the constructs of the phrase it was read from. -/
theorem Derives.prints (h : Derives limit form depth ks e) (hk : ∀ k ∈ ks, k.Lexical)
    (hd : depth ≤ limit) : Prints limit form depth e :=
  h.printsWithin hk form depth (h.nesting_le hk hd)

end Reckon.Grammar

namespace Reckon.Expr
open Reckon.Parser Reckon.Grammar

/-- The text of a tree that was read is read as the same tree, within the same bounds
on nesting and height. -/
theorem parse_text_of_parse {s : String} {parsed : Parsed} (h : Expr.parse s = .ok parsed) :
    ∃ reparsed, Expr.parse parsed.expr.text = .ok reparsed ∧
      reparsed.expr = parsed.expr ∧
      reparsed.expr.nodeCount = parsed.expr.nodeCount ∧
      reparsed.expr.text = parsed.expr.text := by
  obtain ⟨tokens, ht, -⟩ := bind_eq_ok.1 h
  obtain ⟨d, hheight⟩ := (parseAt_eq_ok_iff ht).1 ⟨parsed, h, rfl⟩
  obtain ⟨ks, hs, d'⟩ := (d.prints (Token.lexical_of_ofChars ht) (by decide)).sum
  obtain ⟨tokens', ht', rfl⟩ := hs.ofChars 0
  obtain ⟨reparsed, hr, he⟩ := (parseAt_eq_ok_iff ht').2 ⟨d', hheight⟩
  refine ⟨reparsed, ?_, he, by rw [he], by rw [he]⟩
  rw [Expr.parse, text, String.toList_ofList, hr]

theorem parse_text_of_redundant_parentheses :
    ∃ parsed reparsed, Expr.parse "((2))^-((x - y) - (1.50))!" = .ok parsed ∧
      parsed.expr.text = "2^-(x - y - 1.5)!" ∧
      Expr.parse "2^-(x - y - 1.5)!" = .ok reparsed ∧ reparsed.expr = parsed.expr := by
  have htext : (Expr.parse "((2))^-((x - y) - (1.50))!").toOption.map (·.expr.text) =
      some "2^-(x - y - 1.5)!" := by decide +kernel
  cases h : Expr.parse "((2))^-((x - y) - (1.50))!" with
  | error failure =>
      rw [h] at htext
      cases htext
  | ok parsed =>
      rw [h] at htext
      have ht : parsed.expr.text = "2^-(x - y - 1.5)!" := Option.some.inj htext
      obtain ⟨reparsed, hr, he, -⟩ := parse_text_of_parse h
      exact ⟨parsed, reparsed, rfl, ht, ht ▸ hr, he⟩

end Reckon.Expr
