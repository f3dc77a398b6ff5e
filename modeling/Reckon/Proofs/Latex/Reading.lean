import Reckon.Proofs.Expr.Grammar
import Reckon.Proofs.Latex.Grammar

/-!
What the expanded text of an expression is read as. Every text is a phrase for its
parts, and the tree of the parts is the meaning exactly where no fraction is an operand
of a product, a quotient, a sign or a power.
-/

namespace Reckon

def Operator.kind : Operator → Token.Kind
  | add => .plus
  | sub => .minus
  | mul => .star
  | div => .slash
  | pow => .caret

namespace Latex
open Grammar

/-- The tokens of the expanded text. -/
def Term.kinds : Term → List Token.Kind
  | number value => [.number value]
  | var name => [.identifier name]
  | binary op l r => l.kinds ++ op.kind :: r.kinds
  | neg t => .minus :: t.kinds
  | group t => .openParen :: (t.kinds ++ [.closeParen])
  | frac above below =>
      .openParen :: (above.kinds ++ [.closeParen]) ++
        .slash :: .openParen :: (below.kinds ++ [.closeParen])
  | root t => .identifier "sqrt" :: .openParen :: (t.kinds ++ [.closeParen])

/-- The tokens are a phrase for the first tree, divided by an operand for each of the
others. -/
inductive Divided (limit : Nat) (form : Form) (depth : Nat) :
    List Token.Kind → Expr → List Expr → Prop where
  | lead {ks e} : Derives limit form depth ks e → Divided limit form depth ks e []
  | divide {ks ks' e ds d} : Divided limit form depth ks e ds → Derives limit .unary depth ks' d →
      Divided limit form depth (ks ++ .slash :: ks') e (ds ++ [d])

namespace Divided

variable {limit depth : Nat} {form form' : Form} {ks ks' : List Token.Kind} {e d : Expr}
  {ds : List Expr}

theorem tree (h : Divided limit .product depth ks e ds) :
    Derives limit .product depth ks (Parts.tree ⟨e, ds⟩) := by
  induction h with
  | lead h => exact h
  | divide _ hd ih =>
      rw [Parts.tree, List.foldl_append]
      exact .div ih hd

/-- What is done to the phrase in front is done to the whole. -/
theorem onLead (front : List Token.Kind) (g : Expr → Expr) {depth' : Nat} (hd : depth' ≤ depth)
    (hlead : ∀ {ks e}, Derives limit form depth ks e →
      Derives limit form' depth' (front ++ ks) (g e))
    (h : Divided limit form depth ks e ds) :
    Divided limit form' depth' (front ++ ks) (g e) ds := by
  induction h with
  | lead h => exact .lead (hlead h)
  | divide _ hright ih =>
      rw [← List.append_assoc]
      exact .divide ih (hright.mono hd)

theorem cons (he : Derives limit form depth ks e) (h : Divided limit .unary depth ks' d ds) :
    Divided limit form depth (ks ++ .slash :: ks') e (d :: ds) := by
  induction h with
  | lead h => exact .divide (.lead he) h
  | @divide ks' ks'' e' ds d' _ hright ih =>
      have hdiv := ih.divide hright
      simpa using hdiv

end Divided

/-- A text of the given form is a phrase for its parts. A primary text is one primary, or
one divided by another. -/
def Level.Phrase (limit depth : Nat) : Level → Term → Prop
  | .inner, t | .sum, t => Derives limit .sum depth t.kinds t.read
  | .product, t => Divided limit .product depth t.kinds t.parts.lead t.parts.divisors
  | .unary, t => Divided limit .unary depth t.kinds t.parts.lead t.parts.divisors
  | .power, t => Divided limit .power depth t.kinds t.parts.lead t.parts.divisors
  | .primary, t =>
      (t.parts.divisors = [] ∧ Derives limit .primary depth t.kinds t.parts.lead) ∨
      ∃ ks ks' d, t.kinds = ks ++ .slash :: ks' ∧ t.parts.divisors = [d] ∧
        Derives limit .primary depth ks t.parts.lead ∧ Derives limit .primary depth ks' d

section Phrase

variable {limit depth : Nat} {l r t : Term}

theorem Term.nesting_binary {op : Operator} (hop : op ≠ .pow) (l r : Term) :
    (binary op l r).nesting = max l.nesting r.nesting := by
  cases op with
  | pow => exact absurd rfl hop
  | add | sub | mul | div => rfl

theorem Level.Phrase.product (h : Level.product.Phrase limit depth t) :
    Level.sum.Phrase limit depth t :=
  .ofProduct (Divided.tree h)

theorem Level.Phrase.unary (h : Level.unary.Phrase limit depth t) :
    Level.product.Phrase limit depth t :=
  Divided.onLead [] id (Nat.le_refl _) .ofUnary h

theorem Level.Phrase.power (hd : depth ≤ limit) (h : Level.power.Phrase limit depth t) :
    Level.unary.Phrase limit depth t :=
  Divided.onLead [] id (Nat.le_refl _) (.ofPower hd) h

theorem Level.Phrase.primary (hd : depth ≤ limit) (h : Level.primary.Phrase limit depth t) :
    Level.power.Phrase limit depth t := by
  have hpower {ks e} (h : Derives limit .primary depth ks e) : Derives limit .power depth ks e :=
    .ofFactorial (.ofPrimary h)
  obtain ⟨hwhole, h⟩ | ⟨ks, ks', d, hkinds, hdivisors, hlead, hright⟩ := h
  · rw [Level.Phrase, hwhole]
    exact .lead (hpower h)
  · rw [Level.Phrase, hkinds, hdivisors]
    exact .divide (.lead (hpower hlead)) (.ofPower hd (hpower hright))

theorem phrase_sum {op : Operator} (hop : op = .add ∨ op = .sub)
    (hl : Level.sum.Phrase limit depth l) (hr : Level.product.Phrase limit depth r) :
    Level.sum.Phrase limit depth (.binary op l r) := by
  obtain rfl | rfl := hop
  · exact .add hl hr.tree
  · exact .sub hl hr.tree

theorem phrase_product {op : Operator} (hop : op = .mul ∨ op = .div)
    (hl : Level.product.Phrase limit depth l) (hr : Level.unary.Phrase limit depth r) :
    Level.product.Phrase limit depth (.binary op l r) := by
  have hleft : Derives limit .product depth l.kinds l.read := hl.tree
  obtain rfl | rfl := hop
  · have hmul := hr.onLead (l.kinds ++ [.star]) (.binary .mul l.read) (Nat.le_refl _)
      fun h => by simpa using Derives.mul hleft h
    rw [List.append_assoc] at hmul
    exact hmul
  · have hdiv := hr.onLead (l.kinds ++ [.slash]) (.binary .div l.read) (Nat.le_refl _)
      fun h => by simpa using Derives.div hleft h
    rw [List.append_assoc] at hdiv
    exact hdiv

theorem phrase_neg (hd : depth ≤ limit) (h : Level.unary.Phrase limit (depth + 1) t) :
    Level.unary.Phrase limit depth (.neg t) :=
  h.onLead [.minus] .neg (Nat.le_succ depth) (.neg hd)

theorem phrase_power (hd : depth ≤ limit) (hl : Level.primary.Phrase limit depth l)
    (hr : Level.unary.Phrase limit (depth + 1) r) :
    Level.power.Phrase limit depth (.binary .pow l r) := by
  have hpow {ks : List Token.Kind} {base : Expr} (h : Derives limit .primary depth ks base) :
      Divided limit .power depth (ks ++ [.caret] ++ r.kinds)
        (.binary .pow base r.parts.lead) r.parts.divisors :=
    hr.onLead (ks ++ [.caret]) (.binary .pow base) (Nat.le_succ depth) fun hx => by
      simpa using Derives.pow (.ofPrimary h) hx
  obtain ⟨hwhole, hl⟩ | ⟨ks, ks', d, hkinds, hdivisors, hlead, hright⟩ := hl
  · simpa [Level.Phrase, Term.parts, Parts.power, hwhole, Term.kinds, Operator.kind] using hpow hl
  · have hquotient := Divided.cons (.ofFactorial (.ofPrimary hlead))
      ((hpow hright).onLead [] id (Nat.le_refl _) (.ofPower hd))
    simpa [Level.Phrase, Term.parts, Parts.power, hkinds, hdivisors, Term.kinds, Operator.kind]
      using hquotient

theorem phrase_group (h : Level.inner.Phrase limit (depth + 1) t) :
    Derives limit .primary depth (.openParen :: (t.kinds ++ [.closeParen])) t.read :=
  .group h

theorem phrase_root (h : Level.inner.Phrase limit (depth + 1) t) :
    Level.primary.Phrase limit depth (.root t) := by
  have hcall : Derives limit .primary depth (.identifier "sqrt" :: .openParen ::
      (separated ([(t.kinds, t.read)].map (·.1)) ++ [.closeParen]))
      (.call "sqrt" ([(t.kinds, t.read)].map (·.2))) :=
    .call (f := .sqrt) (by decide) (List.forall_mem_singleton.2 h)
  rw [List.map_singleton, separated_singleton] at hcall
  exact .inl ⟨rfl, hcall⟩

theorem Written.phrase {level : Level} {m : Markup} (h : Written level t m)
    (hd : depth + t.nesting ≤ limit) : level.Phrase limit depth t := by
  -- Groups, signs and exponents are read one level deeper.
  induction h generalizing depth with
  | inner gap gap' _ ih => exact ih hd
  | ofProduct _ ih => exact (ih hd).product
  | sum gap gap' hop _ _ ihl ihr =>
      rw [Term.nesting_binary (by obtain rfl | rfl := hop <;> decide)] at hd
      exact phrase_sum hop (ihl (by omega)) (ihr (by omega))
  | ofUnary _ ih => exact (ih hd).unary
  | product gap gap' hop _ _ ihl ihr =>
      rw [Term.nesting_binary (by obtain rfl | rfl := hop <;> decide)] at hd
      exact phrase_product hop (ihl (by omega)) (ihr (by omega))
  | ofPower _ ih => exact (ih hd).power (by omega)
  | neg gap _ ih =>
      simp only [Term.nesting] at hd
      exact phrase_neg (by omega) (ih (by omega))
  | ofPrimary _ ih => exact (ih hd).primary (by omega)
  | power gap gap' _ _ ihl ihr =>
      simp only [Term.nesting] at hd
      exact phrase_power (by omega) (ihl (by omega)) (ihr (by omega))
  | number _ => exact .inl ⟨rfl, .number _⟩
  | var _ _ hn _ => exact .inl ⟨rfl, .var hn⟩
  | group _ ih =>
      simp only [Term.nesting] at hd
      exact .inl ⟨rfl, phrase_group (ih (by omega))⟩
  | frac gap gap' _ _ iha ihb =>
      simp only [Term.nesting] at hd
      exact .inr ⟨_, _, _, rfl, rfl, phrase_group (iha (by omega)), phrase_group (ihb (by omega))⟩
  | root gap _ ih =>
      simp only [Term.nesting] at hd
      exact phrase_root (ih (by omega))

end Phrase

section Meaning

variable {p q : Parts} {t : Term}

theorem Parts.tree_of_nil (h : p.divisors = []) : p.tree = p.lead := by
  rw [Parts.tree, h, List.foldl_nil]

/-- What is divided is a quotient, of the parts in front of its last divisor. -/
theorem Parts.tree_of_ne_nil (h : p.divisors ≠ []) :
    p.tree = .binary .div (Parts.tree ⟨p.lead, p.divisors.dropLast⟩) (p.divisors.getLast h) := by
  conv => lhs; rw [Parts.tree, ← List.dropLast_concat_getLast h, List.foldl_append]
  rfl

theorem Parts.divisors_of_tree {e : Expr} (h : p.tree = e) (he : ∀ x y, e ≠ .binary .div x y) :
    p.divisors = [] :=
  Decidable.byContradiction fun hne => he _ _ (h.symm.trans (Parts.tree_of_ne_nil hne))

theorem Parts.divisors_power_of_ne_nil (h : p.divisors ≠ []) : (p.power q).divisors ≠ [] := by
  unfold Parts.power
  split <;> simp_all

theorem nodeCount_tree (p : Parts) :
    p.tree.nodeCount = p.lead.nodeCount + (p.divisors.map fun d => d.nodeCount + 1).sum := by
  obtain ⟨lead, divisors⟩ := p
  induction divisors generalizing lead with
  | nil => rfl
  | cons d ds ih =>
      have hstep : Parts.tree ⟨lead, d :: ds⟩ = Parts.tree ⟨.binary .div lead d, ds⟩ := rfl
      rw [hstep, ih]
      simp only [Expr.nodeCount, List.map_cons, List.sum_cons]
      omega

theorem nodeCount_power (p q : Parts) :
    (p.power q).tree.nodeCount = 1 + p.tree.nodeCount + q.tree.nodeCount := by
  obtain ⟨lead, divisors⟩ := p
  obtain ⟨lead', divisors'⟩ := q
  cases divisors with
  | nil =>
      simp only [Parts.power, nodeCount_tree, Expr.nodeCount, List.map_nil, List.sum_nil]
      omega
  | cons d ds =>
      have hsum : (((d :: ds).dropLast ++ [(d :: ds).getLast (by simp)]).map
          fun d => d.nodeCount + 1).sum = ((d :: ds).map fun d => d.nodeCount + 1).sum := by
        rw [List.dropLast_concat_getLast]
      simp only [List.map_append, List.sum_append, List.map_cons, List.map_nil, List.sum_cons,
        List.sum_nil] at hsum
      simp only [Parts.power, nodeCount_tree, Expr.nodeCount, List.map_append, List.sum_append,
        List.map_cons, List.sum_cons]
      omega

/-- The expanded text and the meaning have as many nodes. -/
theorem Term.nodeCount_read (t : Term) : t.read.nodeCount = t.denote.nodeCount := by
  induction t with
  | number value | var name => rfl
  | binary op l r ihl ihr =>
      rw [Term.denote, Expr.nodeCount, ← ihl, ← ihr]
      have hr := nodeCount_tree r.parts
      cases op with
      | pow => exact nodeCount_power l.parts r.parts
      | add | sub => rfl
      | mul | div =>
          simp only [Term.read, Term.parts, nodeCount_tree, Expr.nodeCount] at hr ⊢
          omega
  | neg t ih =>
      simp only [Term.read, Term.denote, Term.parts, nodeCount_tree, Expr.nodeCount] at ih ⊢
      omega
  | group t ih => exact ih
  | frac above below iha ihb =>
      rw [Term.denote, Expr.nodeCount, ← iha, ← ihb]
      rfl
  | root t ih =>
      rw [Term.denote, Expr.nodeCount, Expr.nodeCounts, Expr.nodeCounts, ← ih]
      rfl

theorem Term.read_of_divisors (h : t.parts.divisors = []) : t.read = t.parts.lead :=
  Parts.tree_of_nil h

/-- A settled expression is one operand, unless it is a fraction itself. -/
theorem Term.Settled.divisors (h : t.Settled) (hf : t.isFraction = false) :
    t.parts.divisors = [] := by
  induction t with
  | number value | var name | group t | root t => rfl
  | binary op l r ihl ihr =>
      cases op with
      | add | sub => rfl
      | mul | div => exact ihr h.2.2 h.1
      | pow =>
          obtain ⟨hfl, hfr, hl, hr⟩ := h
          simp [Term.parts, Parts.power, ihl hl hfl, ihr hr hfr]
  | neg t ih => exact ih h.2 h.1
  | frac above below => cases hf

theorem Term.Settled.lead (h : t.Settled) (hf : t.isFraction = false) :
    t.parts.lead = t.read :=
  (Parts.tree_of_nil (h.divisors hf)).symm

theorem Term.Settled.read_eq (h : t.Settled) : t.read = t.denote := by
  induction t with
  | number value | var name => rfl
  | binary op l r ihl ihr =>
      cases op with
      | add | sub =>
          rw [Term.denote, ← ihl h.1, ← ihr h.2]
          rfl
      | mul | div =>
          obtain ⟨hf, hl, hr⟩ := h
          rw [Term.denote, ← ihl hl, ← ihr hr, ← hr.lead hf]
          exact Parts.tree_of_nil (hr.divisors hf)
      | pow =>
          have hwhole := Parts.tree_of_nil (Term.Settled.divisors h rfl)
          obtain ⟨hfl, hfr, hl, hr⟩ := h
          rw [Term.denote, ← ihl hl, ← ihr hr, ← hl.lead hfl, ← hr.lead hfr]
          rw [Term.read, hwhole, Term.parts, Parts.power, hl.divisors hfl]
  | neg t ih =>
      obtain ⟨hf, ht⟩ := h
      rw [Term.denote, ← ih ht, ← ht.lead hf]
      exact Parts.tree_of_nil (ht.divisors hf)
  | group t ih => exact ih h
  | frac above below iha ihb =>
      rw [Term.denote, ← iha h.1, ← ihb h.2]
      rfl
  | root t ih =>
      rw [Term.denote, ← ih h]
      rfl

theorem Term.isFraction_of_divisors (h : t.parts.divisors = []) : t.isFraction = false := by
  cases t with
  | frac above below => cases h
  | _ => rfl

/-- Where the expanded text says what is meant, no fraction is an operand that its
surroundings take apart: a quotient would stand where the operator does, or, for a
quotient, too many nodes to its left. -/
theorem Term.settled_of_read_eq (h : t.read = t.denote) : t.Settled := by
  induction t with
  | number value | var name => trivial
  | binary op l r ihl ihr =>
      cases op with
      | add | sub =>
          injection h with _ hl hr
          exact ⟨ihl hl, ihr hr⟩
      | mul =>
          have hr : r.parts.divisors = [] :=
            Parts.divisors_of_tree (p := Term.parts (.binary .mul l r)) h (by simp [denote])
          have hwhole := (read_of_divisors (t := .binary .mul l r) hr).symm.trans h
          injection hwhole with _ hl hlead
          exact ⟨isFraction_of_divisors hr, ihl hl, ihr ((read_of_divisors hr).trans hlead)⟩
      | div =>
          -- Both trees are quotients here, so only their sizes tell them apart.
          have hr : r.parts.divisors = [] := by
            refine Decidable.byContradiction fun hr => ?_
            have hquotient := Parts.tree_of_ne_nil (p := Term.parts (.binary .div l r)) hr
            rw [← Term.read, h] at hquotient
            injection hquotient with _ hleft _
            have hcount := l.nodeCount_read
            rw [hleft, nodeCount_tree] at hcount
            simp only [Term.parts, Expr.nodeCount, Term.read] at hcount
            omega
          have hwhole := (read_of_divisors (t := .binary .div l r) hr).symm.trans h
          injection hwhole with _ hl hlead
          exact ⟨isFraction_of_divisors hr, ihl hl, ihr ((read_of_divisors hr).trans hlead)⟩
      | pow =>
          have hd :=
            Parts.divisors_of_tree (p := Term.parts (.binary .pow l r)) h (by simp [denote])
          have hl : l.parts.divisors = [] :=
            Decidable.byContradiction fun hl => Parts.divisors_power_of_ne_nil hl hd
          have hpower : Term.parts (.binary .pow l r) =
              ⟨.binary .pow l.parts.lead r.parts.lead, r.parts.divisors⟩ := by
            simp only [Term.parts, Parts.power, hl]
          have hwhole := (read_of_divisors hd).symm.trans h
          rw [hpower] at hd hwhole
          injection hwhole with _ hbase hexponent
          exact ⟨isFraction_of_divisors hl, isFraction_of_divisors hd,
            ihl ((read_of_divisors hl).trans hbase), ihr ((read_of_divisors hd).trans hexponent)⟩
  | neg t ih =>
      have ht : t.parts.divisors = [] :=
        Parts.divisors_of_tree (p := Term.parts (.neg t)) h (by simp [denote])
      have hwhole := (read_of_divisors (t := .neg t) ht).symm.trans h
      injection hwhole with hlead
      exact ⟨isFraction_of_divisors ht, ih ((read_of_divisors ht).trans hlead)⟩
  | group t ih => exact ih h
  | frac above below iha ihb =>
      injection h with _ ha hb
      exact ⟨iha ha, ihb hb⟩
  | root t ih =>
      injection h with _ hargs
      injection hargs with ht _
      exact ih ht

/-- The expanded text says what is meant exactly if no fraction is multiplied by, divided
by, under a sign, or base or exponent of a power. -/
theorem Term.read_eq_denote_iff : t.read = t.denote ↔ t.Settled :=
  ⟨settled_of_read_eq, Settled.read_eq⟩

end Meaning

end Latex
end Reckon
