import Mathlib.Algebra.Order.BigOperators.Group.List
import Mathlib.Algebra.Order.Group.Nat
import Reckon.Proofs.Expr.RoundTrip
import Reckon.Proofs.Expr.Signed
import Reckon.Proofs.Token.Parentheses

/-!
How many parentheses group the parts of a tree's text, found on the tree, and that no text
that is read as the tree has fewer. Those around the arguments of a call group nothing, and
every text for the tree has them once for each call.
-/

namespace Reckon.Expr

mutual

/-- The number of grouping parentheses in the tree's text. -/
def parentheses : Expr → Nat
  | number _ | var _ => 0
  | binary .pow l r =>
    enclosed factorialStrength l l.parentheses + enclosed negStrength r r.parentheses
  | binary op l r =>
    enclosed op.strength l l.parentheses + enclosed (op.strength + 1) r r.parentheses
  | neg e => enclosed negStrength e e.parentheses
  | factorial e => enclosed factorialStrength e e.parentheses
  | call _ items | list items => parenthesesAll items

def parenthesesAll : List Expr → Nat
  | [] => 0
  | e :: es => e.parentheses + parenthesesAll es

end

def isCall : Expr → Bool
  | call _ _ => true
  | _ => false

/-- The number of calls in the tree. -/
def callCount (e : Expr) : Nat := e.preorder.countP isCall

theorem parentheses_binary {op : Operator} (hop : op ≠ .pow) (l r : Expr) :
    (binary op l r).parentheses =
      enclosed op.strength l l.parentheses + enclosed (op.strength + 1) r r.parentheses := by
  cases op with
  | pow => exact absurd rfl hop
  | add | sub | mul | div => rw [parentheses]; exact nofun

theorem parenthesesAll_eq_sum (es : List Expr) :
    parenthesesAll es = (es.map parentheses).sum := by
  induction es with
  | nil => rfl
  | cons e es ih => rw [parenthesesAll, ih, List.map_cons, List.sum_cons]

theorem callCount_binary (op : Operator) (l r : Expr) :
    (binary op l r).callCount = l.callCount + r.callCount := by
  rw [callCount, preorder, List.countP_cons_of_neg Bool.false_ne_true, List.countP_append]
  rfl

theorem callCount_neg (e : Expr) : (neg e).callCount = e.callCount := by
  rw [callCount, preorder, List.countP_cons_of_neg Bool.false_ne_true]
  rfl

theorem callCount_factorial (e : Expr) : (factorial e).callCount = e.callCount := by
  rw [callCount, preorder, List.countP_cons_of_neg Bool.false_ne_true]
  rfl

theorem callCount_call (func : String) (args : List Expr) :
    (call func args).callCount = (args.map callCount).sum + 1 := by
  rw [callCount, preorder, List.countP_cons_of_pos rfl, preorders_eq_flatMap, List.countP_flatMap]
  rfl

theorem callCount_list (items : List Expr) :
    (list items).callCount = (items.map callCount).sum := by
  rw [callCount, preorder, List.countP_cons_of_neg Bool.false_ne_true, preorders_eq_flatMap,
    List.countP_flatMap]
  rfl

theorem count_symbol (op : Operator) : op.symbol.toList.count '(' = 0 := by
  cases op <;> decide

/-- Grouping adds the one parenthesis that the place asks for. -/
theorem count_group {e : Expr} (h : e.print.count '(' = e.parentheses + e.callCount) (least : Nat) :
    (group (e.strength < least) e.print).count '(' =
      enclosed least e e.parentheses + e.callCount := by
  by_cases hlt : e.strength < least
  · simp [group, enclosed, hlt, h, Nat.add_right_comm]
  · simp [group, enclosed, hlt, h]

theorem count_printItems {es : List Expr}
    (h : ∀ e ∈ es, e.print.count '(' = e.parentheses + e.callCount) :
    (printItems es).count '(' = parenthesesAll es + (es.map callCount).sum := by
  induction es with
  | nil => rfl
  | cons e es ih =>
      obtain ⟨he, hes⟩ := List.forall_mem_cons.1 h
      cases es with
      | nil => simp [printItems, parenthesesAll, he]
      | cons e' es =>
          rw [printItems_cons_cons, parenthesesAll, List.map_cons, List.sum_cons,
            Nat.add_add_add_comm, ← he, ← ih hes]
          simp

end Reckon.Expr

namespace Reckon.Grammar
open Reckon.Expr Reckon.Token

variable {limit depth : Nat} {form : Form} {ks : List Token.Kind} {e : Expr}

theorem groupings_separated (items : List (List Token.Kind)) :
    groupings (separated items) = (items.map groupings).sum := by
  induction items with
  | nil => rfl
  | cons ks rest ih =>
      cases rest with
      | nil => simp
      | cons ks' rest =>
          rw [separated_cons_cons, groupings_joined (by simp) (by simp), ih]
          rfl

theorem count_separated (items : List (List Token.Kind)) :
    (separated items).count .openParen =
      (items.map fun ks => ks.count Token.Kind.openParen).sum := by
  induction items with
  | nil => rfl
  | cons ks rest ih =>
      cases rest with
      | nil => simp
      | cons ks' rest => simp [ih]

theorem count_entries {entries : List (List Token.Kind × Expr)}
    (h : ∀ entry ∈ entries,
      entry.1.count .openParen = groupings entry.1 + entry.2.callCount) :
    (separated (entries.map (·.1))).count .openParen =
      groupings (separated (entries.map (·.1))) + ((entries.map (·.2)).map callCount).sum := by
  rw [count_separated, groupings_separated, List.map_map, List.map_map, List.map_map,
    ← List.sum_map_add]
  exact congrArg List.sum (List.map_congr_left h)

/-- The parentheses of a phrase either group something or open the arguments of a call. -/
theorem Derives.count_openParen (h : Derives limit form depth ks e) :
    ks.count .openParen = groupings ks + e.callCount := by
  induction h with
  | ofProduct _ ih | ofUnary _ ih | ofPower _ _ ih | ofFactorial _ ih | ofPrimary _ ih =>
      exact ih
  | add _ _ ihl ihr | sub _ _ ihl ihr | mul _ _ ihl ihr | div _ _ ihl ihr
  | pow _ _ ihl ihr =>
      simp [groupings_joined, callCount_binary, ihl, ihr, Nat.add_add_add_comm]
  | neg _ _ ih => simp [groupings_cons, callCount_neg, ih]
  | factorial _ ih => simp [groupings_joined, groupings, callCount_factorial, ih]
  | number value => rfl
  | var hn => rfl
  | call hf _ ih =>
      simp [groupings_joined, groupings, callCount_call, count_entries ih, Nat.add_assoc]
  | group _ ih => simp [groupings_joined, groupings, ih, Nat.add_right_comm]
  | list _ ih => simp [groupings_joined, groupings, callCount_list, count_entries ih]

theorem parenthesesAll_le {entries : List (List Token.Kind × Expr)}
    (h : ∀ entry ∈ entries,
      enclosed Form.sum.strength entry.2 entry.2.parentheses ≤ groupings entry.1) :
    parenthesesAll (entries.map (·.2)) ≤ groupings (separated (entries.map (·.1))) := by
  rw [groupings_separated, parenthesesAll_eq_sum, List.map_map, List.map_map]
  exact List.sum_le_sum fun entry he => Nat.le_trans (le_enclosed _ _ _) (h entry he)

theorem enclosed_own {natural : Form} (h : e.strength = natural.strength) (n : Nat) :
    enclosed natural.strength e n = n := enclosed_of_le (Nat.le_of_eq h.symm) n

/-- A phrase for the tree has at least the parentheses that the tree's own text has in its
place. -/
theorem Derives.parentheses_le (h : Derives limit form depth ks e) (hk : ∀ k ∈ ks, k.Lexical) :
    enclosed form.strength e e.parentheses ≤ groupings ks := by
  induction h with
  | ofProduct _ ih | ofUnary _ ih | ofPower _ _ ih | ofFactorial _ ih | ofPrimary _ ih =>
      exact Nat.le_trans (enclosed_mono (by decide) _ _) (ih hk)
  | add _ _ ihl ihr | sub _ _ ihl ihr | mul _ _ ihl ihr | div _ _ ihl ihr =>
      obtain ⟨hl, hr⟩ := List.forall_mem_append.1 hk
      rw [groupings_joined (by simp) (by simp), enclosed_own (by rfl),
        parentheses_binary (by decide)]
      exact Nat.add_le_add (ihl hl) (ihr (List.forall_mem_cons.1 hr).2)
  | neg _ _ ih =>
      rw [groupings_cons (by simp) (by simp), enclosed_own (by rfl), parentheses]
      exact ih (List.forall_mem_cons.1 hk).2
  | pow _ _ ihb ihx =>
      obtain ⟨hb, hx⟩ := List.forall_mem_append.1 hk
      rw [groupings_joined (by simp) (by simp), enclosed_own (by rfl), parentheses]
      exact Nat.add_le_add (ihb hb) (ihx (List.forall_mem_cons.1 hx).2)
  | factorial _ ih =>
      rw [groupings_joined (by simp) (by simp), enclosed_own (by rfl), parentheses]
      exact ih (List.forall_mem_append.1 hk).1
  | number value =>
      rw [enclosed_own (strength_number (hk _ List.mem_cons_self))]
      exact Nat.zero_le _
  | var hn => exact Nat.zero_le _
  | call hf _ ih =>
      rw [enclosed_own (by rfl), parentheses, groupings, groupings_joined (by simp) (by simp)]
      exact parenthesesAll_le fun entry he =>
        ih entry he fun k hm => hk k (by simp [mem_separated_of_mem (List.mem_map_of_mem he) hm])
  | @group depth ks e _ ih =>
      -- one pair was read here, and no more than one is printed
      have hinner := ih fun k hm => hk k (by simp [hm])
      have hle := le_enclosed Form.sum.strength e e.parentheses
      have hgroup := enclosed_le Form.primary.strength e e.parentheses
      rw [groupings, groupings_joined (by simp) (by simp), groupings]
      omega
  | list _ ih =>
      rw [enclosed_own (by rfl), parentheses, groupings_cons (by simp) (by simp),
        groupings_joined (by simp) (by simp)]
      exact parenthesesAll_le fun entry he =>
        ih entry he fun k hm => hk k (by simp [mem_separated_of_mem (List.mem_map_of_mem he) hm])

/-- The parentheses in the text of a tree that was read: those that group, and one for each
call. -/
theorem Derives.count_print (h : Derives limit form depth ks e) (hk : ∀ k ∈ ks, k.Lexical) :
    e.print.count '(' = e.parentheses + e.callCount := by
  induction h with
  | ofProduct _ ih | ofUnary _ ih | ofPower _ _ ih | ofFactorial _ ih | ofPrimary _ ih =>
      exact ih hk
  | add _ _ ihl ihr | sub _ _ ihl ihr | mul _ _ ihl ihr | div _ _ ihl ihr =>
      obtain ⟨hl, hr⟩ := List.forall_mem_append.1 hk
      have hleft := count_group (ihl hl)
      have hright := count_group (ihr (List.forall_mem_cons.1 hr).2)
      rw [print_binary (by decide), parentheses_binary (by decide), callCount_binary,
        List.count_append, List.count_cons_of_ne (by decide), List.count_append, count_symbol,
        List.count_cons_of_ne (by decide), hleft, hright, Nat.zero_add, Nat.add_add_add_comm]
  | neg _ _ ih =>
      have hoperand := count_group (ih (List.forall_mem_cons.1 hk).2)
      simp [print, parentheses, callCount_neg, hoperand]
  | pow _ _ ihb ihx =>
      obtain ⟨hb, hx⟩ := List.forall_mem_append.1 hk
      have hbase := count_group (ihb hb)
      have hexponent := count_group (ihx (List.forall_mem_cons.1 hx).2)
      simp [print, parentheses, callCount_binary, hbase, hexponent, Nat.add_add_add_comm]
  | factorial _ ih =>
      have hoperand := count_group (ih (List.forall_mem_append.1 hk).1)
      simp [print, parentheses, callCount_factorial, hoperand]
  | number value => exact (spells_number (hk _ List.mem_cons_self)).count_openParen
  | var hn => exact (spells_identifier (hk _ List.mem_cons_self)).count_openParen
  | call hf _ ih =>
      have hname := (spells_identifier (hk _ List.mem_cons_self)).count_openParen
      have hitems := count_printItems (List.forall_mem_map.2 fun entry he =>
        ih entry he fun k hm => hk k (by simp [mem_separated_of_mem (List.mem_map_of_mem he) hm]))
      simp [print, parentheses, callCount_call, hname, hitems, Nat.add_assoc]
  | group _ ih => exact ih fun k hm => hk k (by simp [hm])
  | list _ ih =>
      have hitems := count_printItems (List.forall_mem_map.2 fun entry he =>
        ih entry he fun k hm => hk k (by simp [mem_separated_of_mem (List.mem_map_of_mem he) hm]))
      simp [print, parentheses, callCount_list, hitems]

end Reckon.Grammar

namespace Reckon.Expr
open Reckon.Parser Reckon.Grammar Reckon.Token

/-- The number of parentheses that group a part of a text, by its tokens. -/
def textGroupings (s : String) : Except Failure Nat :=
  (Token.ofChars 0 s.toList).map fun tokens => groupings (tokens.map Token.kind)

/-- The parentheses of a text that is read are those that group, and one for each call. -/
theorem textGroupings_of_ofChars {s : String} {tokens : List Token} {e : Expr} {limit : Nat}
    (ht : Token.ofChars 0 s.toList = .ok tokens)
    (d : Derives limit .sum 0 (tokens.dropLast.map Token.kind) e) :
    ∃ n, textGroupings s = .ok n ∧ n = groupings (tokens.dropLast.map Token.kind) ∧
      s.toList.count '(' = n + e.callCount := by
  obtain ⟨front, rfl, -⟩ := ofChars_lexical ht
  rw [List.dropLast_concat] at d ⊢
  refine ⟨_, ?_, rfl, ?_⟩
  · rw [textGroupings, ht, Except.map, List.map_append]
    exact congrArg Except.ok (groupings_joined (by simp) (by simp) _ _)
  · rw [← Token.count_openParen ht, ← d.count_openParen]
    simp

/-- Of all texts that are read as a tree, the tree's own text has the fewest parentheses that
group. Both texts have one more for each call in the tree, and no others. -/
theorem textGroupings_text_le {s : String} {parsed : Parsed} (h : Expr.parse s = .ok parsed) :
    ∃ m n, textGroupings s = .ok m ∧ textGroupings parsed.expr.text = .ok n ∧ n ≤ m ∧
      s.toList.count '(' = m + parsed.expr.callCount ∧
      parsed.expr.text.toList.count '(' = n + parsed.expr.callCount := by
  obtain ⟨tokens, ht, -⟩ := bind_eq_ok.1 h
  obtain ⟨d, -⟩ := (parseAt_eq_ok_iff ht).1 ⟨parsed, h, rfl⟩
  have hk := lexical_of_ofChars ht
  obtain ⟨ks, hs, d'⟩ := (d.prints hk (by decide)).sum
  obtain ⟨tokens', ht', rfl⟩ := hs.ofChars 0
  rw [← String.toList_ofList (l := parsed.expr.print)] at ht'
  obtain ⟨m, hm, hm', hcount⟩ := textGroupings_of_ofChars ht d
  obtain ⟨n, hn, -, hcount'⟩ := textGroupings_of_ofChars ht' d'
  refine ⟨m, n, hm, hn, ?_, hcount, hcount'⟩
  have hprint : parsed.expr.print.count '(' = _ := d.count_print hk
  rw [String.toList_ofList, hprint] at hcount'
  calc n = parsed.expr.parentheses := (Nat.add_right_cancel hcount').symm
    _ ≤ enclosed Form.sum.strength parsed.expr parsed.expr.parentheses := le_enclosed _ _ _
    _ ≤ m := (d.parentheses_le hk).trans_eq hm'.symm

theorem textGroupings_text_le_redundant :
    ∃ parsed m n, Expr.parse "((2))^-(sin((x)) - (1.50))!" = .ok parsed ∧
      parsed.expr.text = "2^-(sin(x) - 1.5)!" ∧
      textGroupings "((2))^-(sin((x)) - (1.50))!" = .ok m ∧
      textGroupings parsed.expr.text = .ok n ∧ m = 5 ∧ n = 1 ∧ n ≤ m := by
  have htext : (Expr.parse "((2))^-(sin((x)) - (1.50))!").toOption.map (·.expr.text) =
      some "2^-(sin(x) - 1.5)!" := by decide +kernel
  have hread : (textGroupings "((2))^-(sin((x)) - (1.50))!").toOption = some 5 := by
    decide +kernel
  have hprinted : (textGroupings "2^-(sin(x) - 1.5)!").toOption = some 1 := by decide +kernel
  cases h : Expr.parse "((2))^-(sin((x)) - (1.50))!" with
  | error failure =>
      rw [h] at htext
      cases htext
  | ok parsed =>
      rw [h] at htext
      have ht : parsed.expr.text = "2^-(sin(x) - 1.5)!" := Option.some.inj htext
      obtain ⟨m, n, hm, hn, hle, -⟩ := textGroupings_text_le h
      rw [hm] at hread
      rw [← ht, hn] at hprinted
      exact ⟨parsed, m, n, rfl, ht, hm, hn, Option.some.inj hread, Option.some.inj hprinted, hle⟩

end Reckon.Expr
