import Reckon.Proofs.Expr.Alike
import Reckon.Proofs.Expr.Nesting

/-!
Texts of trees that no text was read as. Values put in for variables leave numbers with a
sign, and a sign is an operator of the text: what is read back has a negation there. Apart
from that the tree is read as it was, wherever the number stands, and it is evaluated alike.
Trees with a NaN, an infinity or an unknown function are left out.
-/

namespace Reckon.Decimal

theorem plainChars_of_isNegative {v : Binary64} (hf : v.isFinite) (hs : v.isNegative) :
    plainChars v = '-' :: plainChars v.abs := by
  have hm : v.magnitude < Binary64.infinity := of_decide_eq_true hf
  have hnan : ¬ Binary64.infinity < v.magnitude := Nat.not_lt.2 (Nat.le_of_lt hm)
  have hinf : v.magnitude ≠ Binary64.infinity := Nat.ne_of_lt hm
  rw [Binary64.abs, plainChars_ofMagnitude hm]
  simp [plainChars, Binary64.isNaN, Binary64.isInf, hnan, hinf, hs]

end Reckon.Decimal

namespace Reckon.Builtin

theorem isName_name (f : Builtin) : Token.IsName f.name.toList := by
  cases f <;> exact ⟨_, _, rfl, by decide, by decide, by decide, by decide⟩

theorem lexical_of_ofName {func : String} {f : Builtin} (h : ofName? func = some f) :
    (Token.Kind.identifier func).Lexical := by
  rw [ofName?_eq_some.1 h]
  exact f.isName_name

end Reckon.Builtin

namespace Reckon.Token

theorem lexical_of_map_kind {position : Nat} {cs : List Char} {kinds : List Kind}
    (h : (ofChars position cs).map (List.map kind) = .ok (kinds ++ [.stop])) :
    ∀ k ∈ kinds, k.Lexical := by
  cases ht : ofChars position cs with
  | error failure =>
      rw [ht] at h
      cases h
  | ok tokens =>
      rw [ht] at h
      have hkinds : tokens.map kind = kinds ++ [.stop] := Except.ok.inj h
      have hlexical := lexical_of_ofChars ht
      rwa [List.map_dropLast, hkinds, List.dropLast_concat] at hlexical

end Reckon.Token

namespace Reckon.Expr
open Reckon.Grammar

variable {limit : Nat} {e : Expr}

/-- A number with its sign written as an operator. -/
def signedNumber (v : Binary64) : Expr :=
  if v.isNegative then neg (number v.abs) else number v

/-- The tree with a negation for every sign of a number. -/
def signed (e : Expr) : Expr :=
  e.transform fun
    | number v => signedNumber v
    | node => node

@[simp] theorem signed_number (v : Binary64) : (number v).signed = signedNumber v := rfl

@[simp] theorem signed_var (name : String) : (var name).signed = var name := rfl

@[simp] theorem signed_binary (op : Operator) (l r : Expr) :
    (binary op l r).signed = binary op l.signed r.signed := rfl

@[simp] theorem signed_neg (e : Expr) : (neg e).signed = neg e.signed := rfl

@[simp] theorem signed_factorial (e : Expr) : (factorial e).signed = factorial e.signed := rfl

@[simp] theorem signed_call (func : String) (args : List Expr) :
    (call func args).signed = call func (args.map signed) :=
  transform_call {} func args

@[simp] theorem signed_list (items : List Expr) :
    (list items).signed = list (items.map signed) := transform_list {} items

theorem eval_signedNumber (b : Bindings) (v : Binary64) : (signedNumber v).eval b = .ok v := by
  unfold signedNumber
  split
  · rename_i hs
    simp [eval, Binary64.neg_abs hs]
  · rw [eval]

theorem alike_signed (b : Bindings) (e : Expr) : Alike b e b e.signed := by
  apply Alike.transform {}
  · intro v
    apply Alike.of_not_isList rfl
    · show (signedNumber v).isList = false
      unfold signedNumber
      split <;> rfl
    · rw [eval, eval_signedNumber]
  · intro name
    exact .of_not_isList rfl rfl rfl

theorem eval_signed (b : Bindings) (e : Expr) : e.signed.eval b = e.eval b :=
  (alike_signed b e).value.symm

theorem strength_signed (e : Expr) : e.signed.strength = e.strength := by
  cases e with
  | number v =>
      rw [signed_number, signedNumber]
      cases hs : v.isNegative <;> simp [strength, hs]
  | call func args => rw [signed_call]; rfl
  | list items => rw [signed_list]; rfl
  | var | binary | neg | factorial => rfl

/-- What a node may be in a text: its number is finite, its name is cut as one token, and
it names a function exactly if it is called. -/
def NodePrintable : Expr → Prop
  | number v => v.isFinite
  | var name =>
      (Token.ofChars 0 name.toList).map (List.map Token.kind) = .ok [.identifier name, .stop] ∧
        Builtin.ofName? name = none
  | call func _ => (Builtin.ofName? func).isSome
  | _ => True

def Printable (e : Expr) : Prop := ∀ node ∈ e.preorder, node.NodePrintable

section Printable

@[simp] theorem printable_number {v : Binary64} : (number v).Printable ↔ v.isFinite := by
  simp [Printable, preorder, NodePrintable]

@[simp] theorem printable_binary {op : Operator} {l r : Expr} :
    (binary op l r).Printable ↔ l.Printable ∧ r.Printable := by
  simp [Printable, preorder, NodePrintable, or_imp, forall_and]

@[simp] theorem printable_neg : (neg e).Printable ↔ e.Printable := by
  simp [Printable, preorder, NodePrintable]

@[simp] theorem printable_factorial : (factorial e).Printable ↔ e.Printable := by
  simp [Printable, preorder, NodePrintable]

@[simp] theorem printable_call {func : String} {args : List Expr} :
    (call func args).Printable ↔
      (Builtin.ofName? func).isSome ∧ ∀ e ∈ args, e.Printable := by
  simp only [Printable, preorder, preorders_eq_flatMap, List.forall_mem_cons,
    List.forall_mem_flatMap, NodePrintable]

@[simp] theorem printable_list {items : List Expr} :
    (list items).Printable ↔ ∀ e ∈ items, e.Printable := by
  simp only [Printable, preorder, preorders_eq_flatMap, List.forall_mem_cons,
    List.forall_mem_flatMap, NodePrintable, true_and]

end Printable

theorem printItems_cons_cons (e e' : Expr) (es : List Expr) :
    printItems (e :: e' :: es) = e.print ++ ',' :: ' ' :: printItems (e' :: es) := by
  rw [printItems]
  exact List.cons_ne_nil e' es

theorem printItems_map {g : Expr → Expr} {es : List Expr} (h : ∀ e ∈ es, (g e).print = e.print) :
    printItems (es.map g) = printItems es := by
  induction es with
  | nil => rfl
  | cons e es ih =>
      obtain ⟨he, hes⟩ := List.forall_mem_cons.1 h
      cases es with
      | nil => simpa [printItems] using he
      | cons e' es =>
          rw [List.map_cons, List.map_cons, printItems_cons_cons, ← List.map_cons, ih hes, he,
            printItems_cons_cons]

theorem print_signed (h : e.Printable) : e.signed.print = e.print := by
  induction e with
  | number v =>
      have hf : v.isFinite := printable_number.1 h
      rw [signed_number, signedNumber]
      split
      · rename_i hs
        have hstrength : (number v.abs).strength = 6 := by
          simp [strength, Binary64.abs, Binary64.isNegative_ofMagnitude false v.magnitude_lt]
        simp [print, group, hstrength, negStrength, Decimal.plainChars_of_isNegative hf hs]
      · rfl
  | var name => rfl
  | binary op l r ihl ihr =>
      obtain ⟨hl, hr⟩ := printable_binary.1 h
      cases op <;> simp only [signed_binary, print, strength_signed, ihl hl, ihr hr]
  | neg e ih => simp only [signed_neg, print, strength_signed, ih (printable_neg.1 h)]
  | factorial e ih =>
      simp only [signed_factorial, print, strength_signed, ih (printable_factorial.1 h)]
  | call func args ih =>
      have hargs := (printable_call.1 h).2
      simp only [signed_call, print, printItems_map fun e he => ih e he (hargs e he)]
  | list items ih =>
      have hitems := printable_list.1 h
      simp only [signed_list, print, printItems_map fun e he => ih e he (hitems e he)]

theorem printsWithin_signed (h : e.Printable) : PrintsWithin limit e.signed := by
  induction e with
  | number v =>
      have hf : v.isFinite := printable_number.1 h
      have habs : (Token.Kind.number v.abs).Lexical := ⟨v.magnitude, of_decide_eq_true hf, rfl⟩
      rw [signed_number, signedNumber]
      split
      · exact (printsWithin_number habs).neg
      · rename_i hs
        rw [Bool.not_eq_true] at hs
        rw [← Binary64.abs_eq hs]
        exact printsWithin_number habs
  | var name =>
      obtain ⟨hname, hfree⟩ := h (var name) (by simp [preorder])
      have hlexical : ∀ k ∈ [Token.Kind.identifier name], k.Lexical :=
        Token.lexical_of_map_kind hname
      exact printsWithin_var (hlexical _ (by simp)) hfree
  | binary op l r ihl ihr =>
      obtain ⟨hl, hr⟩ := printable_binary.1 h
      exact (ihl hl).binary op (ihr hr)
  | neg e ih => exact (ih (printable_neg.1 h)).neg
  | factorial e ih => exact (ih (printable_factorial.1 h)).factorial
  | call func args ih =>
      obtain ⟨hfunc, hargs⟩ := printable_call.1 h
      obtain ⟨f, hf⟩ := Option.isSome_iff_exists.1 hfunc
      rw [signed_call]
      apply PrintsWithin.call hf (Builtin.lexical_of_ofName hf)
      rw [List.forall_mem_map]
      exact fun e he => ih e he (hargs e he)
  | list items ih =>
      have hitems := printable_list.1 h
      rw [signed_list]
      apply PrintsWithin.list
      rw [List.forall_mem_map]
      exact fun e he => ih e he (hitems e he)

/-- The text of a printable tree is cut into tokens that are a phrase for the tree with its
signs as operators, within its nesting and no less. -/
theorem phrase_text (h : e.Printable) :
    ∃ tokens, Token.ofChars 0 e.print = .ok tokens ∧
      ∀ limit, Derives limit .sum 0 (tokens.dropLast.map Token.kind) e.signed ↔
        e.signed.nesting ≤ limit := by
  have hone : Form.sum.strength ≤ e.signed.strength := one_le_strength e.signed
  have hroom : 0 + enclosed Form.sum.strength e.signed e.signed.nesting ≤ e.signed.nesting := by
    rw [enclosed_of_le hone, Nat.zero_add]
  obtain ⟨ks, hs, d⟩ := (printsWithin_signed h .sum 0 hroom).sum
  rw [print_signed h] at hs
  obtain ⟨tokens, ht, rfl⟩ := hs.ofChars 0
  refine ⟨tokens, ht, fun limit => ⟨fun d' => ?_, fun hn => d.room (by omega)⟩⟩
  have hle := d'.nesting_le (Token.lexical_of_ofChars ht) (Nat.zero_le _)
  rwa [enclosed_of_le hone, Nat.zero_add] at hle

/-- The text of a printable tree is read within the bounds on nesting and height, as the
tree with a negation for every sign of a number, and it is evaluated alike. -/
theorem parse_text_of_printable (h : e.Printable) :
    ((∃ parsed, Expr.parse e.text = .ok parsed ∧ parsed.expr = e.signed) ↔
      e.signed.nesting ≤ 255 ∧ e.signed.height ≤ 512) ∧
    (e.signed.height ≤ 512 →
      ∀ parsed, Expr.parse e.text = .ok parsed → parsed.expr = e.signed) ∧
    ∀ b, e.signed.eval b = e.eval b := by
  obtain ⟨tokens, ht, hd⟩ := phrase_text h
  have hparse : Expr.parse e.text = Expr.parseAt 0 e.print := by
    rw [Expr.parse, text, String.toList_ofList]
  rw [hparse]
  refine ⟨?_, fun hh parsed hp => ?_, fun b => eval_signed b e⟩
  · rw [parseAt_eq_ok_iff ht, hd]
    rfl
  · -- the tree that was read may lie within a lower limit than the one printed
    obtain ⟨d, hheight⟩ := (parseAt_eq_ok_iff ht).1 ⟨parsed, hp, rfl⟩
    exact d.unique ((hd _).2 (Nat.le_refl _)) hheight hh

theorem parse_text_of_negative_numbers :
    let e := binary .sub (factorial (number (-3)))
      (binary .mul (binary .pow (number (-2)) (number (-0))) (call "log" [var "x", number (-1)]))
    e.Printable ∧ e.text = "(-3)! - (-2)^-0 * log(x, -1)" ∧
      ∃ parsed, Expr.parse e.text = .ok parsed ∧
        parsed.expr = binary .sub (factorial (neg (number 3)))
          (binary .mul (binary .pow (neg (number 2)) (neg (number 0)))
            (call "log" [var "x", neg (number 1)])) := by
  intro e
  have h : e.Printable := by
    have hx : (var "x").Printable := by
      simp only [Printable, preorder, List.forall_mem_singleton]
      exact ⟨by rfl, by decide⟩
    simp only [e, printable_binary, printable_factorial, printable_number, printable_call,
      List.forall_mem_cons]
    refine ⟨?_, ⟨?_, ?_⟩, by decide, hx, ?_, List.forall_mem_nil _⟩ <;> decide +kernel
  have htext : e.text = "(-3)! - (-2)^-0 * log(x, -1)" := by decide +kernel
  exact ⟨h, htext, (parse_text_of_printable h).1.2 ⟨by decide +kernel, by decide +kernel⟩⟩

end Reckon.Expr
