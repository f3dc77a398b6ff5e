import Reckon.Proofs.Expr.Printing

/-!
How deep the text of a tree nests, found on the tree, and that this is how deep it has to:
the text is a phrase within the nesting, and no phrase for the tree lies within less. The
trees may have been built in any way. How the text of numbers and names is cut is taken
from where they come from.
-/

namespace Reckon.Expr

/-- Parentheses around the tree are one more construct. -/
def enclosed (least : Nat) (e : Expr) (nesting : Nat) : Nat :=
  if e.strength < least then nesting + 1 else nesting

mutual

/-- The greatest number of constructs around an operand of the tree's text: parentheses,
brackets, signs and exponents. -/
def nesting : Expr → Nat
  | number _ | var _ => 0
  | binary .pow l r =>
    max (enclosed factorialStrength l l.nesting) (enclosed negStrength r r.nesting + 1)
  | binary op l r => max (enclosed op.strength l l.nesting) (enclosed (op.strength + 1) r r.nesting)
  | neg e => enclosed negStrength e e.nesting + 1
  | factorial e => enclosed factorialStrength e e.nesting
  | call _ items | list items => nestings items

def nestings : List Expr → Nat
  | [] => 0
  | e :: es => max (e.nesting + 1) (nestings es)

end

theorem nesting_binary {op : Operator} (hop : op ≠ .pow) (l r : Expr) :
    (binary op l r).nesting =
      max (enclosed op.strength l l.nesting) (enclosed (op.strength + 1) r r.nesting) := by
  cases op with
  | pow => exact absurd rfl hop
  | add | sub | mul | div => rw [nesting]; exact nofun

theorem nestings_le {es : List Expr} {n : Nat} :
    nestings es ≤ n ↔ ∀ e ∈ es, e.nesting + 1 ≤ n := by
  induction es with
  | nil => simp [nestings]
  | cons e es ih => rw [nestings, Nat.max_le, ih, List.forall_mem_cons]

theorem le_enclosed (least : Nat) (e : Expr) (n : Nat) : n ≤ enclosed least e n := by
  unfold enclosed
  split <;> omega

theorem enclosed_le (least : Nat) (e : Expr) (n : Nat) : enclosed least e n ≤ n + 1 := by
  unfold enclosed
  split <;> omega

theorem enclosed_mono {least least' : Nat} (h : least ≤ least') (e : Expr) (n : Nat) :
    enclosed least e n ≤ enclosed least' e n := by
  unfold enclosed
  split <;> split <;> omega

theorem enclosed_of_le {least : Nat} {e : Expr} (h : least ≤ e.strength) (n : Nat) :
    enclosed least e n = n := if_neg (Nat.not_lt.2 h)

end Reckon.Expr

namespace Reckon.Grammar
open Reckon.Expr

variable {limit depth : Nat} {form natural : Form} {ks : List Token.Kind} {e l r : Expr}

/-- The text of the tree is a phrase wherever its nesting leaves room for it. -/
def PrintsWithin (limit : Nat) (e : Expr) : Prop :=
  ∀ (form : Form) depth, depth + enclosed form.strength e e.nesting ≤ limit →
    Prints limit form depth e

theorem PrintsWithin.intro (natural : Form) (hn : e.strength = natural.strength)
    (h : ∀ depth, depth + e.nesting ≤ limit → Prints limit natural depth e) :
    PrintsWithin limit e := by
  intro form depth hd
  rw [enclosed] at hd
  split at hd
  · -- the text stands in parentheses, where any strength will do
    have hp := h (depth + 1) (by omega)
    exact (hp.loosen (hn ▸ one_le_strength e)).ofGroup
  · rename_i hlt
    exact (h depth hd).loosen (hn ▸ Nat.not_lt.1 hlt)

theorem PrintsWithin.group (h : PrintsWithin limit e) (form : Form)
    (hd : depth + enclosed form.strength e e.nesting ≤ limit) :
    ∃ ks, Token.Spells (Expr.group (e.strength < form.strength) e.print) ks ∧
      Derives limit form depth ks e :=
  (h form depth hd).group (Nat.le_of_add_right_le hd)

theorem strength_number {v : Binary64} (hv : (Token.Kind.number v).Lexical) :
    (Expr.number v).strength = Form.primary.strength := by
  obtain ⟨m, hm, rfl⟩ := hv
  simp [Expr.strength, Binary64.isNegative_ofMagnitude false (Binary64.lt_signBit hm),
    Form.strength]

theorem printsWithin_number {v : Binary64} (hv : (Token.Kind.number v).Lexical) :
    PrintsWithin limit (.number v) := by
  have hs := strength_number hv
  apply PrintsWithin.intro .primary hs
  intro depth hd
  exact .intro (Token.spells_number hv) (.number _) hs (Nat.le_of_add_right_le hd)

theorem printsWithin_var {name : String} (hn : (Token.Kind.identifier name).Lexical)
    (hb : Builtin.ofName? name = none) : PrintsWithin limit (.var name) := by
  apply PrintsWithin.intro .primary rfl
  intro depth hd
  exact .intro (Token.spells_identifier hn) (.var hb) rfl (Nat.le_of_add_right_le hd)

theorem PrintsWithin.neg (h : PrintsWithin limit e) : PrintsWithin limit (.neg e) := by
  apply PrintsWithin.intro .unary rfl
  intro depth hd
  have hdepth : depth ≤ limit := Nat.le_of_add_right_le hd
  have hroom : depth + 1 + enclosed Form.unary.strength e e.nesting ≤ limit := by
    rw [Nat.add_assoc, Nat.add_comm 1]
    exact hd
  obtain ⟨ks, hs, d⟩ := h.group .unary hroom
  exact .intro (.symbol rfl hs) (.neg hdepth d) rfl hdepth

theorem PrintsWithin.factorial (h : PrintsWithin limit e) : PrintsWithin limit (.factorial e) := by
  apply PrintsWithin.intro .factorial rfl
  intro depth hd
  obtain ⟨ks, hs, d⟩ := h.group .factorial hd
  exact .intro (hs.append (by decide) (symbol_spells rfl)) (.factorial d) rfl
    (Nat.le_of_add_right_le hd)

theorem PrintsWithin.pow (hl : PrintsWithin limit l) (hr : PrintsWithin limit r) :
    PrintsWithin limit (.binary .pow l r) := by
  apply PrintsWithin.intro .power rfl
  intro depth hd
  rw [nesting, ← Nat.add_max_add_left, Nat.max_le, Nat.add_comm _ 1, ← Nat.add_assoc] at hd
  obtain ⟨ks, hs, d⟩ := hl.group .factorial hd.1
  obtain ⟨ks', hs', d'⟩ := hr.group .unary hd.2
  exact .intro (hs.append (by decide) (.symbol rfl hs')) (.pow d d') rfl
    (Nat.le_of_add_right_le hd.1)

theorem PrintsWithin.joined {op : Operator} {c : Char} {kind : Token.Kind} {left right : Form}
    (h : Joining op c kind left right) (hop : op ≠ .pow) (hleft : left.strength = op.strength)
    (hright : right.strength = op.strength + 1) (hl : PrintsWithin limit l)
    (hr : PrintsWithin limit r) : PrintsWithin limit (.binary op l r) := by
  apply PrintsWithin.intro left (h.strength l r)
  intro depth hd
  rw [nesting_binary hop, ← Nat.add_max_add_left, Nat.max_le, ← hright, ← hleft] at hd
  exact h.prints (hl left depth hd.1) (hr right depth hd.2) (Nat.le_of_add_right_le hd.1)

theorem PrintsWithin.binary (op : Operator) (hl : PrintsWithin limit l)
    (hr : PrintsWithin limit r) : PrintsWithin limit (.binary op l r) := by
  cases op with
  | add => exact joined joining_add nofun rfl rfl hl hr
  | sub => exact joined joining_sub nofun rfl rfl hl hr
  | mul => exact joined joining_mul nofun rfl rfl hl hr
  | div => exact joined joining_div nofun rfl rfl hl hr
  | pow => exact hl.pow hr

theorem PrintsWithin.items {es : List Expr} (h : ∀ e ∈ es, PrintsWithin limit e)
    (hd : depth + nestings es ≤ limit) : ∀ e ∈ es, Prints limit .sum (depth + 1) e := by
  intro e he
  apply h e he
  have hitem : e.nesting + 1 ≤ nestings es := nestings_le.1 (Nat.le_refl _) e he
  have hone : Form.sum.strength ≤ e.strength := one_le_strength e
  rw [enclosed_of_le hone]
  omega

theorem PrintsWithin.call {func : String} {f : Builtin} {es : List Expr}
    (hf : Builtin.ofName? func = some f) (hn : (Token.Kind.identifier func).Lexical)
    (h : ∀ e ∈ es, PrintsWithin limit e) : PrintsWithin limit (.call func es) := by
  apply PrintsWithin.intro .primary rfl
  intro depth hd
  obtain ⟨printed, rfl, hs, d⟩ := prints_items (PrintsWithin.items h hd)
  have hclose := hs.append (by decide) (symbol_spells (c := ')') rfl)
  have hargs := (Token.spells_identifier hn).append (by decide) (.symbol (c := '(') rfl hclose)
  exact .intro (by simpa [Expr.print] using hargs) (.call hf d) rfl (Nat.le_of_add_right_le hd)

theorem PrintsWithin.list {es : List Expr} (h : ∀ e ∈ es, PrintsWithin limit e) :
    PrintsWithin limit (.list es) := by
  apply PrintsWithin.intro .primary rfl
  intro depth hd
  obtain ⟨printed, rfl, hs, d⟩ := prints_items (PrintsWithin.items h hd)
  refine .intro ?_ (.list d) rfl (Nat.le_of_add_right_le hd)
  exact .symbol rfl (hs.append (by decide) (symbol_spells rfl))

theorem within_own (hn : e.strength = natural.strength) (h : depth + e.nesting ≤ limit) :
    depth + enclosed natural.strength e e.nesting ≤ limit := by
  rwa [enclosed_of_le (Nat.le_of_eq hn.symm)]

theorem within_items {entries : List (List Token.Kind × Expr)} (hd : depth ≤ limit)
    (h : ∀ entry ∈ entries,
      depth + 1 + enclosed Form.sum.strength entry.2 entry.2.nesting ≤ limit) :
    depth + nestings (entries.map (·.2)) ≤ limit := by
  have hitems : nestings (entries.map (·.2)) ≤ limit - depth := by
    apply nestings_le.2
    simp only [List.forall_mem_map]
    intro entry he
    have hle := le_enclosed Form.sum.strength entry.2 entry.2.nesting
    have hentry := h entry he
    omega
  omega

/-- A phrase for the tree lies within no less than the nesting of the tree's own text. -/
theorem Derives.nesting_le (h : Derives limit form depth ks e) (hk : ∀ k ∈ ks, k.Lexical)
    (hd : depth ≤ limit) : depth + enclosed form.strength e e.nesting ≤ limit := by
  induction h with
  | ofProduct _ ih | ofUnary _ ih | ofPower _ _ ih | ofFactorial _ ih | ofPrimary _ ih =>
      refine Nat.le_trans (Nat.add_le_add_left (enclosed_mono ?_ _ _) _) (ih hk hd)
      decide
  | @add depth ks ks' l r _ _ ihl ihr | @sub depth ks ks' l r _ _ ihl ihr
  | @mul depth ks ks' l r _ _ ihl ihr | @div depth ks ks' l r _ _ ihl ihr =>
      obtain ⟨hl, hr⟩ := List.forall_mem_append.1 hk
      have hleft := ihl hl hd
      have hright := ihr (List.forall_mem_cons.1 hr).2 hd
      refine within_own rfl ?_
      rw [nesting_binary (by decide), ← Nat.add_max_add_left]
      exact Nat.max_le.2 ⟨hleft, hright⟩
  | neg _ hu ih =>
      have hoperand := ih (List.forall_mem_cons.1 hk).2 (hu.depth_le rfl)
      rw [Nat.add_assoc, Nat.add_comm 1] at hoperand
      refine within_own rfl ?_
      rwa [nesting]
  | pow _ hu ihb ihx =>
      obtain ⟨hb, hx⟩ := List.forall_mem_append.1 hk
      have hbase := ihb hb hd
      have hexponent := ihx (List.forall_mem_cons.1 hx).2 (hu.depth_le rfl)
      rw [Nat.add_assoc, Nat.add_comm 1] at hexponent
      refine within_own rfl ?_
      rw [nesting, ← Nat.add_max_add_left]
      exact Nat.max_le.2 ⟨hbase, hexponent⟩
  | factorial _ ih =>
      have hoperand := ih (List.forall_mem_append.1 hk).1 hd
      refine within_own rfl ?_
      rwa [nesting]
  | number value => exact within_own (strength_number (hk (.number value) (by simp))) hd
  | var hn => exact within_own rfl hd
  | call hf hu ih =>
      refine within_own rfl ?_
      rw [nesting]
      exact within_items hd fun entry he =>
        ih entry he (fun k hm => hk k (by simp [mem_separated_of_mem (List.mem_map_of_mem he) hm]))
          ((hu entry he).depth_le rfl)
  | list hu ih =>
      refine within_own rfl ?_
      rw [nesting]
      exact within_items hd fun entry he =>
        ih entry he (fun k hm => hk k (by simp [mem_separated_of_mem (List.mem_map_of_mem he) hm]))
          ((hu entry he).depth_le rfl)
  | @group depth ks e hu ih =>
      -- parentheses that were read make room for those that are printed
      have hinner := ih (fun k hm => hk k (by simp [hm])) (hu.depth_le rfl)
      have hle := le_enclosed Form.sum.strength e e.nesting
      have hgroup := enclosed_le Form.primary.strength e e.nesting
      omega

theorem Derives.sums (h : Derives limit .sum 0 ks e) (hh : e.height ≤ Parser.maxHeight) :
    Parser.sums (Parser.unary (limit + 1)) (ks.map (Token.mk · 0)) = .ok (⟨e, e.height⟩, []) := by
  have hends (form : Form) : Ends form [] := by
    cases form <;> simp [Ends, Parser.peek, Form.absorbed]
  have hkinds : (ks.map (Token.mk · 0)).map Token.kind = ks := by simp [Function.comp_def]
  have hreach := h.arrives _ [] hkinds hh (hends _)
  rw [List.append_nil] at hreach
  exact sums_complete hreach (hends _)

/-- Tokens are a phrase for at most one tree that is low enough, whatever the limits. -/
theorem Derives.unique {limit' : Nat} {e' : Expr} (h : Derives limit .sum 0 ks e)
    (h' : Derives limit' .sum 0 ks e') (hh : e.height ≤ Parser.maxHeight)
    (hh' : e'.height ≤ Parser.maxHeight) : e = e' := by
  have hw : Derives (max limit limit') .sum 0 ks e := h.room (by omega)
  have hw' : Derives (max limit limit') .sum 0 ks e' := h'.room (by omega)
  cases Except.ok.inj ((hw.sums hh).symm.trans (hw'.sums hh'))
  rfl

end Reckon.Grammar
