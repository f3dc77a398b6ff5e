import Reckon.Expr.Parser

/-!
The grammar of expressions as a relation between tokens and trees. It says what
each phrase consists of and nothing about the order in which tokens are looked
at; that one sequence of tokens has at most one tree is a theorem about the
descent, not a property built in here.

Enclosing constructs are counted: parentheses, brackets of calls and lists,
signs and exponents. The bound on them stands at operands with their signs and
nowhere else.
-/

namespace Reckon.Grammar

/-- The phrases that have one tree, loosest first. -/
inductive Form where
  | sum
  | product
  | unary
  | power
  | factorial
  | primary
deriving DecidableEq

/-- The forms that may begin with a sign. -/
def Form.signed : Form → Bool
  | .sum | .product | .unary => true
  | _ => false

/-- Items with a comma between any two of them. -/
def separated (items : List (List Token.Kind)) : List Token.Kind :=
  [Token.Kind.comma].intercalate items

/-- The tokens are a phrase of the given form for the tree, inside the given
number of enclosing constructs. An operand lies inside at most `limit`. The
entries of a call or a list come with the tokens of each. -/
inductive Derives (limit : Nat) : Form → Nat → List Token.Kind → Expr → Prop where
  | ofProduct {depth ks e} :
      Derives limit .product depth ks e → Derives limit .sum depth ks e
  | add {depth ks ks' l r} :
      Derives limit .sum depth ks l → Derives limit .product depth ks' r →
      Derives limit .sum depth (ks ++ .plus :: ks') (.binary .add l r)
  | sub {depth ks ks' l r} :
      Derives limit .sum depth ks l → Derives limit .product depth ks' r →
      Derives limit .sum depth (ks ++ .minus :: ks') (.binary .sub l r)
  | ofUnary {depth ks e} :
      Derives limit .unary depth ks e → Derives limit .product depth ks e
  | mul {depth ks ks' l r} :
      Derives limit .product depth ks l → Derives limit .unary depth ks' r →
      Derives limit .product depth (ks ++ .star :: ks') (.binary .mul l r)
  | div {depth ks ks' l r} :
      Derives limit .product depth ks l → Derives limit .unary depth ks' r →
      Derives limit .product depth (ks ++ .slash :: ks') (.binary .div l r)
  | ofPower {depth ks e} : depth ≤ limit →
      Derives limit .power depth ks e → Derives limit .unary depth ks e
  | neg {depth ks e} : depth ≤ limit →
      Derives limit .unary (depth + 1) ks e →
      Derives limit .unary depth (.minus :: ks) (.neg e)
  | ofFactorial {depth ks e} :
      Derives limit .factorial depth ks e → Derives limit .power depth ks e
  | pow {depth ks ks' base exponent} :
      Derives limit .factorial depth ks base →
      Derives limit .unary (depth + 1) ks' exponent →
      Derives limit .power depth (ks ++ .caret :: ks') (.binary .pow base exponent)
  | ofPrimary {depth ks e} :
      Derives limit .primary depth ks e → Derives limit .factorial depth ks e
  | factorial {depth ks e} :
      Derives limit .factorial depth ks e →
      Derives limit .factorial depth (ks ++ [.bang]) (.factorial e)
  | number {depth} (value : Binary64) :
      Derives limit .primary depth [.number value] (.number value)
  | var {depth name} : Builtin.ofName? name = none →
      Derives limit .primary depth [.identifier name] (.var name)
  | call {depth func f} {entries : List (List Token.Kind × Expr)} :
      Builtin.ofName? func = some f →
      (∀ entry ∈ entries, Derives limit .sum (depth + 1) entry.1 entry.2) →
      Derives limit .primary depth
        (.identifier func :: .openParen ::
          (separated (entries.map (·.1)) ++ [.closeParen]))
        (.call func (entries.map (·.2)))
  | group {depth ks e} :
      Derives limit .sum (depth + 1) ks e →
      Derives limit .primary depth (.openParen :: (ks ++ [.closeParen])) e
  | list {depth} {entries : List (List Token.Kind × Expr)} :
      (∀ entry ∈ entries, Derives limit .sum (depth + 1) entry.1 entry.2) →
      Derives limit .primary depth
        (.openBracket :: (separated (entries.map (·.1)) ++ [.closeBracket]))
        (.list (entries.map (·.2)))

variable {limit : Nat} {form : Form} {depth : Nat} {ks : List Token.Kind} {e : Expr}

@[simp] theorem separated_nil : separated [] = [] := rfl

@[simp] theorem separated_singleton (ks : List Token.Kind) : separated [ks] = ks := by
  simp [separated, List.intercalate]

@[simp] theorem separated_cons_cons (ks ks' : List Token.Kind)
    (rest : List (List Token.Kind)) :
    separated (ks :: ks' :: rest) = ks ++ .comma :: separated (ks' :: rest) := by
  simp [separated, List.intercalate]

theorem mem_separated {k : Token.Kind} {items : List (List Token.Kind)}
    (h : k ∈ separated items) : k = .comma ∨ ∃ ks ∈ items, k ∈ ks := by
  induction items with
  | nil => simp at h
  | cons ks rest ih =>
      cases rest with
      | nil => exact .inr ⟨ks, by simp, by simpa using h⟩
      | cons ks' rest =>
          simp only [separated_cons_cons, List.mem_append, List.mem_cons] at h
          obtain h | h | h := h
          · exact .inr ⟨ks, by simp, h⟩
          · exact .inl h
          · obtain h | ⟨ks'', hm, h⟩ := ih h
            · exact .inl h
            · exact .inr ⟨ks'', List.mem_cons_of_mem _ hm, h⟩

/-- A phrase is not empty, does not begin with a closing bracket, and begins with a
sign only if its form may. -/
theorem Derives.head (h : Derives limit form depth ks e) :
    ∃ k rest, ks = k :: rest ∧ k ≠ .closeParen ∧ k ≠ .closeBracket ∧
      (k = .minus → form.signed) := by
  induction h with
  | ofProduct _ ih | ofUnary _ ih | ofPower _ _ ih =>
      obtain ⟨k, rest, rfl, hp, hb, -⟩ := ih
      exact ⟨k, rest, rfl, hp, hb, fun _ => rfl⟩
  | ofFactorial _ ih | ofPrimary _ ih => exact ih
  | add _ _ ih _ | sub _ _ ih _ | mul _ _ ih _ | div _ _ ih _ | pow _ _ ih _
  | factorial _ ih =>
      obtain ⟨k, rest, rfl, hk⟩ := ih
      exact ⟨k, _, rfl, hk⟩
  | neg => exact ⟨_, _, rfl, by simp, by simp, fun _ => rfl⟩
  | number | var | call | group | list => exact ⟨_, _, rfl, by simp, by simp, by simp⟩

theorem Derives.head_ne_closeParen (h : Derives limit form depth ks e) :
    ∃ k rest, ks = k :: rest ∧ k ≠ .closeParen := by
  obtain ⟨k, rest, hks, hk, -⟩ := h.head
  exact ⟨k, rest, hks, hk⟩

theorem Derives.head_ne_closeBracket (h : Derives limit form depth ks e) :
    ∃ k rest, ks = k :: rest ∧ k ≠ .closeBracket := by
  obtain ⟨k, rest, hks, -, hk, -⟩ := h.head
  exact ⟨k, rest, hks, hk⟩

theorem Derives.stop_not_mem (h : Derives limit form depth ks e) :
    Token.Kind.stop ∉ ks := by
  induction h with
  | ofProduct _ ih | ofUnary _ ih | ofPower _ _ ih | ofFactorial _ ih | ofPrimary _ ih =>
      exact ih
  | add _ _ ihl ihr | sub _ _ ihl ihr | mul _ _ ihl ihr | div _ _ ihl ihr
  | pow _ _ ihl ihr =>
      simp [ihl, ihr]
  | neg _ _ ih | factorial _ ih | group _ ih => simp [ih]
  | number | var => simp
  | call _ _ ih | list _ ih =>
      simp only [List.mem_cons, List.mem_append, List.not_mem_nil, or_false, not_or,
        reduceCtorEq, not_false_eq_true, true_and]
      intro h
      obtain h | ⟨ks, hm, h⟩ := mem_separated h
      · cases h
      · obtain ⟨entry, he, rfl⟩ := List.mem_map.1 hm
        exact ih entry he h

/-- A phrase that may begin with a sign lies within the bound. -/
theorem Derives.depth_le (h : Derives limit form depth ks e) (hf : form.signed) :
    depth ≤ limit := by
  induction h with
  | ofProduct _ ih | ofUnary _ ih => exact ih rfl
  | add _ _ ih _ | sub _ _ ih _ | mul _ _ ih _ | div _ _ ih _ => exact ih rfl
  | ofPower hd _ _ | neg hd _ _ => exact hd
  | ofFactorial | pow | ofPrimary | factorial | number | var | call | group | list =>
      cases hf

/-- What has at least as much room for further constructs stays a phrase. -/
theorem Derives.room (h : Derives limit form depth ks e) {limit' depth' : Nat}
    (hd : depth' + limit ≤ depth + limit') : Derives limit' form depth' ks e := by
  induction h generalizing depth' with
  | ofProduct _ ih => exact .ofProduct (ih hd)
  | add _ _ ihl ihr => exact .add (ihl hd) (ihr hd)
  | sub _ _ ihl ihr => exact .sub (ihl hd) (ihr hd)
  | ofUnary _ ih => exact .ofUnary (ih hd)
  | mul _ _ ihl ihr => exact .mul (ihl hd) (ihr hd)
  | div _ _ ihl ihr => exact .div (ihl hd) (ihr hd)
  | ofPower hl _ ih => exact .ofPower (by omega) (ih hd)
  | neg hl _ ih => exact .neg (by omega) (ih (by omega))
  | ofFactorial _ ih => exact .ofFactorial (ih hd)
  | pow _ _ ihb ihx => exact .pow (ihb hd) (ihx (by omega))
  | ofPrimary _ ih => exact .ofPrimary (ih hd)
  | factorial _ ih => exact .factorial (ih hd)
  | number value => exact .number value
  | var hn => exact .var hn
  | call hf _ ih => exact .call hf fun entry he => ih entry he (by omega)
  | group _ ih => exact .group (ih (by omega))
  | list _ ih => exact .list fun entry he => ih entry he (by omega)

/-- What is inside fewer enclosing constructs stays a phrase. -/
theorem Derives.mono (h : Derives limit form depth ks e) {depth' : Nat}
    (hd : depth' ≤ depth) : Derives limit form depth' ks e := h.room (Nat.add_le_add_right hd _)

end Reckon.Grammar
