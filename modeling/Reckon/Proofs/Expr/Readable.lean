import Reckon.Proofs.Expr.Signed

/-!
The trees that texts are read as, told from the trees alone: each node can be written, no
number has a sign, and the tree's own text keeps within the bounds on nesting and height. Which
other texts are read as the same tree is not looked at.
-/

namespace Reckon.Expr
open Reckon.Grammar

variable {limit depth : Nat} {form : Form} {ks : List Token.Kind} {e : Expr}

@[simp] theorem printable_var {name : String} :
    (var name).Printable ↔ (var name).NodePrintable := by
  simp [Printable, preorder]

theorem nodePrintable_var {name : String} (h : (Token.Kind.identifier name).Lexical)
    (hn : Builtin.ofName? name = none) : (var name).NodePrintable := by
  refine ⟨?_, hn⟩
  obtain ⟨tokens, ht, hkinds⟩ := (Token.spells_identifier h).ofChars 0
  obtain ⟨front, rfl, -⟩ := Token.ofChars_lexical ht
  rw [List.dropLast_concat] at hkinds
  rw [ht, Except.map, List.map_append, hkinds]
  rfl

theorem signed_number_of_lexical {v : Binary64} (h : (Token.Kind.number v).Lexical) :
    (number v).signed = number v := by
  obtain ⟨m, hm, rfl⟩ := h
  have hs := Binary64.isNegative_ofMagnitude false (Binary64.lt_signBit hm)
  simp [signedNumber, hs]

theorem isFinite_of_lexical {v : Binary64} (h : (Token.Kind.number v).Lexical) : v.isFinite := by
  obtain ⟨m, hm, rfl⟩ := h
  rw [Binary64.isFinite, Binary64.magnitude_ofMagnitude false (Binary64.lt_signBit hm)]
  exact decide_eq_true hm

theorem map_signed_entries {entries : List (List Token.Kind × Expr)}
    (h : ∀ entry ∈ entries, entry.2.signed = entry.2) :
    (entries.map (·.2)).map signed = entries.map (·.2) := by
  rw [List.map_map]
  exact List.map_congr_left h

/-- Reading builds nothing that cannot be written, and no sign into a number. -/
theorem printable_of_derives (h : Derives limit form depth ks e) (hk : ∀ k ∈ ks, k.Lexical) :
    e.Printable ∧ e.signed = e := by
  induction h with
  | ofProduct _ ih | ofUnary _ ih | ofPower _ _ ih | ofFactorial _ ih | ofPrimary _ ih =>
      exact ih hk
  | add _ _ ihl ihr | sub _ _ ihl ihr | mul _ _ ihl ihr | div _ _ ihl ihr | pow _ _ ihl ihr =>
      obtain ⟨hl, hr⟩ := List.forall_mem_append.1 hk
      obtain ⟨hpl, hsl⟩ := ihl hl
      obtain ⟨hpr, hsr⟩ := ihr (List.forall_mem_cons.1 hr).2
      exact ⟨printable_binary.2 ⟨hpl, hpr⟩, by rw [signed_binary, hsl, hsr]⟩
  | neg _ _ ih =>
      obtain ⟨hp, hs⟩ := ih (List.forall_mem_cons.1 hk).2
      exact ⟨printable_neg.2 hp, by rw [signed_neg, hs]⟩
  | factorial _ ih =>
      obtain ⟨hp, hs⟩ := ih (List.forall_mem_append.1 hk).1
      exact ⟨printable_factorial.2 hp, by rw [signed_factorial, hs]⟩
  | number value =>
      have hvalue : (Token.Kind.number value).Lexical := hk _ (by simp)
      exact ⟨printable_number.2 (isFinite_of_lexical hvalue), signed_number_of_lexical hvalue⟩
  | var hn => exact ⟨printable_var.2 (nodePrintable_var (hk _ (by simp)) hn), rfl⟩
  | call hf _ ih =>
      have hentry entry he := ih entry he fun k hm =>
        hk k (by simp [mem_separated_of_mem (List.mem_map_of_mem he) hm])
      refine ⟨printable_call.2 ⟨by rw [hf]; rfl, ?_⟩, ?_⟩
      · exact List.forall_mem_map.2 fun entry he => (hentry entry he).1
      · rw [signed_call, map_signed_entries fun entry he => (hentry entry he).2]
  | group _ ih => exact ih fun k hm => hk k (by simp [hm])
  | list _ ih =>
      have hentry entry he := ih entry he fun k hm =>
        hk k (by simp [mem_separated_of_mem (List.mem_map_of_mem he) hm])
      refine ⟨printable_list.2 ?_, ?_⟩
      · exact List.forall_mem_map.2 fun entry he => (hentry entry he).1
      · rw [signed_list, map_signed_entries fun entry he => (hentry entry he).2]

/-- The tree is one that a text can be read as. -/
structure Readable (e : Expr) : Prop where
  printable : e.Printable
  signed_eq : e.signed = e
  nesting_le : e.nesting ≤ 255
  height_le : e.height ≤ 512

theorem Readable.of_parseAt {position : Nat} {cs : List Char} {parsed : Parsed}
    (h : Expr.parseAt position cs = .ok parsed) : parsed.expr.Readable := by
  obtain ⟨tokens, ht, -⟩ := bind_eq_ok.1 h
  have hlexical := Token.lexical_of_ofChars ht
  obtain ⟨d, hheight⟩ := (parseAt_eq_ok_iff ht).1 ⟨parsed, h, rfl⟩
  obtain ⟨hprintable, hsigned⟩ := printable_of_derives d hlexical
  have hone : Form.sum.strength ≤ parsed.expr.strength := one_le_strength parsed.expr
  have hnesting := d.nesting_le hlexical (Nat.zero_le _)
  rw [enclosed_of_le hone, Nat.zero_add] at hnesting
  exact ⟨hprintable, hsigned, hnesting, hheight⟩

/-- A tree that keeps within the bounds is read from its text, its signs as operators. -/
theorem parse_text_of_bounds (h : e.Printable) (hnesting : e.signed.nesting ≤ 255)
    (hheight : e.signed.height ≤ 512) :
    ∃ parsed, Expr.parse e.text = .ok parsed ∧ parsed.expr = e.signed := by
  obtain ⟨tokens, ht, hd⟩ := phrase_text h
  have hparse : Expr.parse e.text = Expr.parseAt 0 e.print := by
    rw [Expr.parse, text, String.toList_ofList]
  rw [hparse, parseAt_eq_ok_iff ht]
  exact ⟨(hd 255).2 hnesting, hheight⟩

/-- Such a tree is read from its own text. -/
theorem Readable.parse_text (h : e.Readable) :
    ∃ parsed, Expr.parse e.text = .ok parsed ∧ parsed.expr = e := by
  have hsigned := h.signed_eq
  have hparse := parse_text_of_bounds h.printable
    (by rw [hsigned]; exact h.nesting_le) (by rw [hsigned]; exact h.height_le)
  rwa [hsigned] at hparse

theorem Readable.eq_of_text {e' : Expr} (h : e.Readable) (h' : e'.Readable)
    (ht : e.text = e'.text) : e = e' := by
  obtain ⟨parsed, hp, rfl⟩ := h.parse_text
  obtain ⟨parsed', hp', rfl⟩ := h'.parse_text
  rw [ht] at hp
  rw [Except.ok.inj (hp.symm.trans hp')]

end Reckon.Expr
