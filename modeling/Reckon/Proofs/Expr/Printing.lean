import Reckon.Expr.Printer
import Reckon.Proofs.Expr.Recognition
import Reckon.Proofs.Token.Spelling

/-!
Printed trees as phrases: which parentheses a place asks for, and that the tokens of the
parts make up those of the whole. Of a tree only its own text is known here, not whether
it was read from another one.
-/

namespace Reckon.Grammar

/-- The least strength of a tree that needs no parentheses as the form. -/
def Form.strength : Form → Nat
  | .sum => 1
  | .product => 2
  | .unary => 3
  | .power => 4
  | .factorial => 5
  | .primary => 6

/-- The next form that every phrase of the form also is. -/
def Form.looser : Form → Form
  | .sum | .product => .sum
  | .unary => .product
  | .power => .unary
  | .factorial => .power
  | .primary => .factorial

variable {limit depth : Nat} {form form' : Form} {ks : List Token.Kind} {e : Expr}

theorem Form.strength_inj (h : form.strength = form'.strength) : form = form' := by
  cases form <;> cases form' <;> first | rfl | cases h

theorem Form.strength_looser (form : Form) :
    form.looser.strength = max 1 (form.strength - 1) := by
  cases form <;> rfl

theorem Derives.looser (h : Derives limit form depth ks e) (hd : depth ≤ limit) :
    Derives limit form.looser depth ks e := by
  cases form with
  | sum => exact h
  | product => exact .ofProduct h
  | unary => exact .ofUnary h
  | power => exact .ofPower hd h
  | factorial => exact .ofFactorial h
  | primary => exact .ofPrimary h

theorem Derives.loosen (h : Derives limit form depth ks e) (hd : depth ≤ limit)
    (hs : form'.strength ≤ form.strength) : Derives limit form' depth ks e := by
  induction hn : form.strength - form'.strength generalizing form with
  | zero => exact Form.strength_inj (Nat.le_antisymm (by omega) hs) ▸ h
  | succ n ih =>
      have hpos : 1 ≤ form'.strength := by cases form' <;> decide
      have hloose := form.strength_looser
      exact ih (h.looser hd) (by omega) (by omega)

/-- The text of the tree spells a phrase for it, of every form that its strength
allows. The phrase is one construct further in where the form asks for more. -/
def Prints (limit : Nat) (form : Form) (depth : Nat) (e : Expr) : Prop :=
  ∃ ks, Token.Spells e.print ks ∧ ∀ form' : Form, form'.strength ≤ e.strength →
    Derives limit form' (if e.strength < form.strength then depth + 1 else depth) ks e

theorem one_le_strength (e : Expr) : 1 ≤ e.strength := by
  unfold Expr.strength Operator.strength Expr.negStrength Expr.factorialStrength
  split
  · split <;> decide
  · decide
  · decide
  · split <;> decide
  · decide

theorem Prints.intro (hs : Token.Spells e.print ks) (h : Derives limit form depth ks e)
    (he : e.strength = form.strength) (hd : depth ≤ limit) : Prints limit form depth e := by
  refine ⟨ks, hs, fun form' hf => ?_⟩
  rw [he, if_neg (Nat.lt_irrefl _)]
  exact h.loosen hd (he ▸ hf)

theorem Prints.loosen (h : Prints limit form depth e) (hf : form'.strength ≤ form.strength) :
    Prints limit form' depth e := by
  obtain ⟨ks, hs, h⟩ := h
  refine ⟨ks, hs, fun form'' hf' => (h form'' hf').mono ?_⟩
  split <;> split <;> omega

/-- Parentheses around the text cost no more than those the tree was read with. -/
theorem Prints.ofGroup (h : Prints limit .sum (depth + 1) e) : Prints limit form depth e := by
  obtain ⟨ks, hs, h⟩ := h
  refine ⟨ks, hs, fun form' hf => (h form' hf).mono ?_⟩
  split <;> split <;> omega

theorem symbol_spells {c : Char} {kind : Token.Kind} (h : Token.Kind.ofChar? c = some kind) :
    Token.Spells [c] [kind] := .symbol h .nil

/-- A child stands as its place asks, in parentheses where its strength is less. -/
theorem Prints.group (h : Prints limit form depth e) (hd : depth ≤ limit) :
    ∃ ks, Token.Spells (Expr.group (e.strength < form.strength) e.print) ks ∧
      Derives limit form depth ks e := by
  obtain ⟨ks, hs, h⟩ := h
  by_cases hlt : e.strength < form.strength
  · have hsum := h .sum (one_le_strength e)
    rw [if_pos hlt] at hsum
    refine ⟨.openParen :: (ks ++ [.closeParen]), ?_, ?_⟩
    · simp only [Expr.group, hlt, decide_true, if_true, List.cons_append]
      exact .symbol rfl (.append hs (by decide) (symbol_spells rfl))
    · exact (Derives.group hsum).loosen hd (by cases form <;> decide)
  · have hform := h form (Nat.not_lt.1 hlt)
    rw [if_neg hlt] at hform
    exact ⟨ks, by simpa [Expr.group, hlt] using hs, hform⟩

theorem Prints.sum (h : Prints limit .sum depth e) :
    ∃ ks, Token.Spells e.print ks ∧ Derives limit .sum depth ks e := by
  obtain ⟨ks, hs, h⟩ := h
  have hlt : ¬ e.strength < Form.sum.strength := Nat.not_lt.2 (one_le_strength e)
  have hsum := h .sum (one_le_strength e)
  rw [if_neg hlt] at hsum
  exact ⟨ks, hs, hsum⟩

/-- How an operator other than the power joins its operands: its sign, the forms of
the operands, and the form of the whole. -/
structure Joining (op : Operator) (c : Char) (kind : Token.Kind) (left right : Form) : Prop where
  print : ∀ l r, (Expr.binary op l r).print =
    Expr.group (l.strength < left.strength) l.print ++
      ' ' :: c :: ' ' :: Expr.group (r.strength < right.strength) r.print
  symbol : Token.Kind.ofChar? c = some kind
  strength : ∀ l r, (Expr.binary op l r).strength = left.strength
  derives : ∀ {limit depth ks ks' l r}, Derives limit left depth ks l →
    Derives limit right depth ks' r → Derives limit left depth (ks ++ kind :: ks') (.binary op l r)

theorem print_binary {op : Operator} (hop : op ≠ .pow) (l r : Expr) :
    (Expr.binary op l r).print =
      Expr.group (l.strength < op.strength) l.print ++ ' ' :: (op.symbol.toList ++
        ' ' :: Expr.group (r.strength < op.strength + 1) r.print) := by
  cases op with
  | pow => exact absurd rfl hop
  | add | sub | mul | div => simp only [Expr.print, List.append_assoc, List.cons_append]

theorem joining_add : Joining .add '+' .plus .sum .product :=
  ⟨fun _ _ => by rw [print_binary (by decide)]; rfl, rfl, fun _ _ => rfl, .add⟩

theorem joining_sub : Joining .sub '-' .minus .sum .product :=
  ⟨fun _ _ => by rw [print_binary (by decide)]; rfl, rfl, fun _ _ => rfl, .sub⟩

theorem joining_mul : Joining .mul '*' .star .product .unary :=
  ⟨fun _ _ => by rw [print_binary (by decide)]; rfl, rfl, fun _ _ => rfl, .mul⟩

theorem joining_div : Joining .div '/' .slash .product .unary :=
  ⟨fun _ _ => by rw [print_binary (by decide)]; rfl, rfl, fun _ _ => rfl, .div⟩

theorem Joining.prints {op : Operator} {c : Char} {kind : Token.Kind} {left right : Form}
    {l r : Expr} (h : Joining op c kind left right) (hl : Prints limit left depth l)
    (hr : Prints limit right depth r) (hd : depth ≤ limit) :
    Prints limit left depth (.binary op l r) := by
  obtain ⟨ks, hs, d⟩ := hl.group hd
  obtain ⟨ks', hs', d'⟩ := hr.group hd
  refine .intro ?_ (h.derives d d') (h.strength l r) hd
  rw [h.print]
  exact hs.append (by decide) (.blank (.symbol h.symbol (.blank hs')))

theorem mem_separated_of_mem {k : Token.Kind} {items : List (List Token.Kind)}
    (hm : ks ∈ items) (hk : k ∈ ks) : k ∈ separated items := by
  induction items with
  | nil => cases hm
  | cons ks' rest ih =>
      cases rest with
      | nil => simpa [List.mem_singleton.1 hm] using hk
      | cons ks'' rest =>
          obtain rfl | hm := List.mem_cons.1 hm
          · simp [hk]
          · simp [ih hm]

/-- The items of a call or a list are printed as entries of one. -/
theorem prints_items {es : List Expr} (h : ∀ e ∈ es, Prints limit .sum depth e) :
    ∃ printed : List (List Token.Kind × Expr), printed.map (·.2) = es ∧
      Token.Spells (Expr.printItems es) (separated (printed.map (·.1))) ∧
      ∀ entry ∈ printed, Derives limit .sum depth entry.1 entry.2 := by
  induction es with
  | nil => exact ⟨[], rfl, .nil, by simp⟩
  | cons e es ih =>
      obtain ⟨he, hes⟩ := List.forall_mem_cons.1 h
      obtain ⟨ks, hs, hd⟩ := he.sum
      obtain ⟨printed, rfl, hs', hd'⟩ := ih hes
      refine ⟨(ks, e) :: printed, rfl, ?_, List.forall_mem_cons.2 ⟨hd, hd'⟩⟩
      cases printed with
      | nil => simpa [Expr.printItems] using hs
      | cons entry printed =>
          have hcomma := hs.append (c := ',') (by decide) (.symbol rfl (.blank hs'))
          simpa [Expr.printItems] using hcomma

end Reckon.Grammar
