import Reckon.Proofs.Expr.Grammar
import Reckon.Proofs.Failure

/-!
What a production takes off the front of the tokens is a phrase of the grammar for
the tree it answers with, the height it answers with is the height of that tree,
and the tree is low enough. That it takes all it can is not stated here.
-/

namespace Reckon.Grammar
open Reckon.Parser

variable {limit depth : Nat} {form : Form}

theorem raise_eq_ok {e : Expr} {below : Nat} {ts rest : List Token} {node : Subtree} :
    raise e below ts = .ok (node, rest) ↔
      below + 1 ≤ maxHeight ∧ node = ⟨e, below + 1⟩ ∧ rest = ts := by
  simp only [raise]
  split <;> rename_i h
  · simp [Nat.not_le.2 h]
  · simp [Nat.not_lt.1 h, eq_comm]

theorem close_eq_ok {closer : Token.Kind} {opener : Char} {opened : Nat}
    {ts rest : List Token} :
    close closer opener opened ts = .ok rest ↔ peek ts = closer ∧ rest = ts.tail := by
  simp only [close]
  split
  · simp_all [eq_comm]
  · split <;> simp_all

theorem eq_cons_of_peek {ts : List Token} {k : Token.Kind} (h : peek ts = k)
    (hk : k ≠ .stop) : ∃ t, ts = t :: ts.tail ∧ t.kind = k := by
  cases ts with
  | nil => exact absurd h.symm hk
  | cons t rest => exact ⟨t, rfl, h⟩

/-- What a production has read: a phrase for its tree, which is low enough and has
the height that is answered. -/
def Reads (limit : Nat) (form : Form) (depth : Nat) (ts : List Token) (node : Subtree)
    (rest : List Token) : Prop :=
  ∃ front, ts = front ++ rest ∧
    Derives limit form depth (front.map (·.kind)) node.expr ∧
    node.height = node.expr.height ∧ node.height ≤ maxHeight

/-- Whatever the production reads is a phrase. -/
def Sound (limit : Nat) (form : Form) (depth : Nat) (p : Production Subtree) : Prop :=
  ∀ ts node rest, p ts = .ok (node, rest) → Reads limit form depth ts node rest

theorem Reads.imp {form' : Form} {depth' : Nat} {ts rest : List Token} {node : Subtree}
    (h : Reads limit form depth ts node rest)
    (hd : ∀ ks, Derives limit form depth ks node.expr →
      Derives limit form' depth' ks node.expr) :
    Reads limit form' depth' ts node rest := by
  obtain ⟨front, rfl, d, hh⟩ := h
  exact ⟨front, rfl, hd _ d, hh⟩

/-- A binary node over two phrases with one token between them. -/
theorem Reads.binary {form' form'' : Form} {depth' : Nat} {op : Operator} {t : Token}
    {ts ts' rest rest' : List Token} {left right node : Subtree}
    (hl : Reads limit form depth ts left (t :: ts'))
    (hr : Reads limit form' depth' ts' right rest)
    (hn : raise (.binary op left.expr right.expr) (max left.height right.height) rest =
      .ok (node, rest'))
    (hd : ∀ ks ks', Derives limit form depth ks left.expr →
      Derives limit form' depth' ks' right.expr →
      Derives limit form'' depth (ks ++ t.kind :: ks') (.binary op left.expr right.expr)) :
    Reads limit form'' depth ts node rest' := by
  obtain ⟨front, rfl, dl, hhl, -⟩ := hl
  obtain ⟨front', rfl, dr, hhr, -⟩ := hr
  obtain ⟨hb, rfl, rfl⟩ := raise_eq_ok.1 hn
  refine ⟨front ++ t :: front', by simp, ?_, ?_, hb⟩
  · simpa using hd _ _ dl dr
  · simp [Expr.height, hhl, hhr]

/-- Operators that join phrases of one form with operands of another. -/
def Joins (limit : Nat) (form form' : Form) (depth : Nat)
    (operator? : Token.Kind → Option Operator) : Prop :=
  ∀ {k op ks ks' l r}, operator? k = some op → Derives limit form depth ks l →
    Derives limit form' depth ks' r →
    Derives limit form depth (ks ++ k :: ks') (.binary op l r)

theorem joins_sum : Joins limit .sum .product depth sumOperator? := by
  intro k op ks ks' l r hop hl hr
  cases k <;> simp only [sumOperator?, reduceCtorEq, Option.some.injEq] at hop <;> subst hop
  · exact .add hl hr
  · exact .sub hl hr

theorem joins_product : Joins limit .product .unary depth productOperator? := by
  intro k op ks ks' l r hop hl hr
  cases k <;> simp only [productOperator?, reduceCtorEq, Option.some.injEq] at hop <;>
    subst hop
  · exact .mul hl hr
  · exact .div hl hr

theorem ne_stop_of_sumOperator {k : Token.Kind} {op : Operator}
    (h : sumOperator? k = some op) : k ≠ .stop := by
  rintro rfl
  simp [sumOperator?] at h

theorem ne_stop_of_productOperator {k : Token.Kind} {op : Operator}
    (h : productOperator? k = some op) : k ≠ .stop := by
  rintro rfl
  simp [productOperator?] at h

theorem joined_sound {form' : Form} {operator? : Token.Kind → Option Operator}
    {operand : Production Subtree} (hj : Joins limit form form' depth operator?)
    (hs : ∀ {k op}, operator? k = some op → k ≠ .stop)
    (ho : Sound limit form' depth operand) {bound : Nat} {ts ts' rest : List Token}
    {left node : Subtree} (hl : Reads limit form depth ts left ts')
    (h : joined operator? operand bound left ts' = .ok (node, rest)) :
    Reads limit form depth ts node rest := by
  induction bound generalizing left ts' with
  | zero =>
      simp only [joined, Except.ok.injEq, Prod.mk.injEq] at h
      obtain ⟨rfl, rfl⟩ := h
      exact hl
  | succ bound ih =>
      rw [joined] at h
      split at h
      · simp only [Except.ok.injEq, Prod.mk.injEq] at h
        obtain ⟨rfl, rfl⟩ := h
        exact hl
      · rename_i op hop
        obtain ⟨⟨right, rest'⟩, hr, h⟩ := bind_eq_ok.1 h
        obtain ⟨⟨node', rest''⟩, hn, h⟩ := bind_eq_ok.1 h
        obtain ⟨t, ht, hk⟩ := eq_cons_of_peek rfl (hs hop)
        rw [ht] at hl
        refine ih (hl.binary (ho _ _ _ hr) hn fun ks ks' dl dr => ?_) h
        exact hj (hk ▸ hop) dl dr

theorem chain_sound {form' : Form} {operator? : Token.Kind → Option Operator}
    {operand : Production Subtree} (hj : Joins limit form form' depth operator?)
    (hs : ∀ {k op}, operator? k = some op → k ≠ .stop)
    (hof : ∀ {ks e}, Derives limit form' depth ks e → Derives limit form depth ks e)
    (ho : Sound limit form' depth operand) :
    Sound limit form depth (chain operator? operand) := by
  intro ts node rest h
  obtain ⟨⟨first, rest'⟩, hf, h⟩ := bind_eq_ok.1 h
  exact joined_sound hj hs ho ((ho _ _ _ hf).imp fun _ => hof) h

theorem products_sound {unary : Production Subtree} (hu : Sound limit .unary depth unary) :
    Sound limit .product depth (products unary) :=
  chain_sound joins_product ne_stop_of_productOperator .ofUnary hu

theorem sums_sound {unary : Production Subtree} (hu : Sound limit .unary depth unary) :
    Sound limit .sum depth (sums unary) :=
  chain_sound joins_sum ne_stop_of_sumOperator .ofProduct (products_sound hu)

/-- What has been read of a call or a list behind its opening bracket: items with
commas between them and the closing bracket. -/
def ReadsItems (limit depth : Nat) (closer : Token.Kind) (ts : List Token)
    (es : List Expr) (rest : List Token) : Prop :=
  ∃ (front : List Token) (t : Token) (entries : List (List Token.Kind × Expr)),
    ts = front ++ t :: rest ∧ t.kind = closer ∧
    (∀ entry ∈ entries, Derives limit .sum depth entry.1 entry.2) ∧
    front.map (·.kind) = separated (entries.map (·.1)) ∧ es = entries.map (·.2)

theorem ReadsItems.singleton {closer : Token.Kind} {ts rest : List Token} {node : Subtree}
    {t : Token} (h : Reads limit .sum depth ts node (t :: rest)) (ht : t.kind = closer) :
    ReadsItems limit depth closer ts [node.expr] rest := by
  obtain ⟨front, rfl, d, -⟩ := h
  exact ⟨front, t, [(front.map (·.kind), node.expr)], rfl, ht, by simpa using d,
    by simp, rfl⟩

theorem ReadsItems.cons {closer : Token.Kind} {ts ts' rest : List Token} {node : Subtree}
    {es : List Expr} {t : Token} (h : Reads limit .sum depth ts node (t :: ts'))
    (ht : t.kind = .comma) (hs : ReadsItems limit depth closer ts' es rest)
    (hne : es ≠ []) : ReadsItems limit depth closer ts (node.expr :: es) rest := by
  obtain ⟨front, rfl, d, -⟩ := h
  obtain ⟨front', t', entries, rfl, ht', hd, hf, rfl⟩ := hs
  refine ⟨front ++ t :: front', t', (front.map (·.kind), node.expr) :: entries,
    by simp, ht', ?_, ?_, by simp⟩
  · intro entry he
    obtain rfl | he := List.mem_cons.1 he
    · exact d
    · exact hd entry he
  · cases entries with
    | nil => simp at hne
    | cons entry entries => simp [ht, hf]

theorem entries_sound {entry : Production Subtree} (hs : Sound limit .sum depth entry)
    {closer : Token.Kind} (hc : closer ≠ .stop) {opener : Char} {opened bound height h : Nat}
    {found es : List Expr} {ts rest : List Token}
    (hr : entries entry closer opener opened bound found height ts =
      .ok ((es, h), rest)) :
    ∃ es', es' ≠ [] ∧ es = found.reverse ++ es' ∧ h = max height (Expr.heights es') ∧
      ReadsItems limit depth closer ts es' rest := by
  induction bound generalizing found height ts with
  | zero => cases hr
  | succ bound ih =>
      rw [entries] at hr
      obtain ⟨⟨next, ts'⟩, hn, hr⟩ := bind_eq_ok.1 hr
      have hread := hs _ _ _ hn
      have hheight : next.height = next.expr.height := by
        obtain ⟨-, -, -, hh, -⟩ := hread
        exact hh
      dsimp only at hr
      split at hr
      · rename_i hcomma
        obtain ⟨t, ht, hk⟩ := eq_cons_of_peek hcomma (by simp)
        obtain ⟨es', hne, rfl, rfl, hi⟩ := ih hr
        rw [ht] at hread
        refine ⟨next.expr :: es', by simp, by simp, ?_, .cons hread hk hi hne⟩
        simp [Expr.heights, hheight, Nat.max_assoc]
      · obtain ⟨rest', hcl, hr⟩ := bind_eq_ok.1 hr
        obtain ⟨hpeek, rfl⟩ := close_eq_ok.1 hcl
        simp only [Except.ok.injEq, Prod.mk.injEq] at hr
        obtain ⟨⟨rfl, rfl⟩, rfl⟩ := hr
        obtain ⟨t, ht, hk⟩ := eq_cons_of_peek hpeek hc
        rw [ht] at hread
        refine ⟨[next.expr], by simp, by simp, ?_, .singleton hread hk⟩
        simp [Expr.heights, hheight]

theorem items_sound {entry : Production Subtree} (hs : Sound limit .sum depth entry)
    {closer : Token.Kind} (hc : closer ≠ .stop) {opener : Char} {opened h : Nat}
    {es : List Expr} {ts rest : List Token}
    (hr : items entry closer opener opened ts = .ok ((es, h), rest)) :
    h = Expr.heights es ∧ ReadsItems limit depth closer ts es rest := by
  simp only [items] at hr
  split at hr
  · rename_i hpeek
    simp only [Except.ok.injEq, Prod.mk.injEq] at hr
    obtain ⟨⟨rfl, rfl⟩, rfl⟩ := hr
    obtain ⟨t, ht, hk⟩ := eq_cons_of_peek hpeek hc
    exact ⟨rfl, [], t, [], ht, hk, by simp, by simp, rfl⟩
  · obtain ⟨es', -, rfl, rfl, hi⟩ := entries_sound hs hc hr
    simpa using hi

theorem primary_sound {sum : Production Subtree} (hs : Sound limit .sum (depth + 1) sum) :
    Sound limit .primary depth (primary sum) := by
  intro ts node rest h
  cases ts with
  | nil => cases h
  | cons t ts =>
      simp only [primary] at h
      split at h
      · rename_i value hk
        simp only [Except.ok.injEq, Prod.mk.injEq] at h
        obtain ⟨rfl, rfl⟩ := h
        exact ⟨[t], rfl, by simpa [hk] using .number value, rfl, by simp [maxHeight]⟩
      · rename_i name hk
        split at h
        · rename_i hp
          obtain ⟨p, hts, hpk⟩ := eq_cons_of_peek hp (by simp)
          cases hf : Builtin.ofName? name with
          | none => simp [hf] at h
          | some f =>
              simp only [hf, reduceCtorEq, if_false] at h
              obtain ⟨⟨⟨args, height⟩, rest'⟩, hi, h⟩ := bind_eq_ok.1 h
              obtain ⟨rfl, front, c, entries, htail, hck, hd, hfr, rfl⟩ :=
                items_sound hs (by simp) hi
              obtain ⟨hb, rfl, rfl⟩ := raise_eq_ok.1 h
              refine ⟨t :: p :: (front ++ [c]), ?_, ?_, rfl, hb⟩
              · rw [hts, htail]
                simp
              · simpa [hk, hpk, hck, hfr] using .call hf hd
        · split at h
          · rename_i hf
            simp only [Except.ok.injEq, Prod.mk.injEq] at h
            obtain ⟨rfl, rfl⟩ := h
            exact ⟨[t], rfl, by simpa [hk] using .var hf, rfl, by simp [maxHeight]⟩
          · cases h
      · rename_i hk
        obtain ⟨⟨inner, rest'⟩, hin, h⟩ := bind_eq_ok.1 h
        obtain ⟨rest'', hcl, h⟩ := bind_eq_ok.1 h
        simp only [Except.ok.injEq, Prod.mk.injEq] at h
        obtain ⟨rfl, rfl⟩ := h
        obtain ⟨hp, rfl⟩ := close_eq_ok.1 hcl
        obtain ⟨c, hc, hck⟩ := eq_cons_of_peek hp (by simp)
        obtain ⟨front, hfr, d, hh⟩ := hs _ _ _ hin
        refine ⟨t :: (front ++ [c]), ?_, ?_, hh⟩
        · rw [hfr]
          simpa using hc
        · simpa [hk, hck] using .group d
      · rename_i hk
        obtain ⟨⟨⟨es, height⟩, rest'⟩, hi, h⟩ := bind_eq_ok.1 h
        obtain ⟨rfl, front, c, entries, rfl, hck, hd, hfr, rfl⟩ :=
          items_sound hs (by simp) hi
        obtain ⟨hb, rfl, rfl⟩ := raise_eq_ok.1 h
        refine ⟨t :: (front ++ [c]), by simp, ?_, rfl, hb⟩
        simpa [hk, hck, hfr] using .list hd
      · cases h

theorem factorials_sound {ts ts' rest : List Token} {atom node : Subtree}
    (ha : Reads limit .factorial depth ts atom ts')
    (h : factorials atom ts' = .ok (node, rest)) :
    Reads limit .factorial depth ts node rest := by
  induction ts' generalizing atom with
  | nil =>
      simp only [factorials, Except.ok.injEq, Prod.mk.injEq] at h
      obtain ⟨rfl, rfl⟩ := h
      exact ha
  | cons t ts' ih =>
      simp only [factorials] at h
      split at h
      · rename_i hk
        obtain ⟨⟨node', rest'⟩, hn, h⟩ := bind_eq_ok.1 h
        obtain ⟨hb, rfl, rfl⟩ := raise_eq_ok.1 hn
        refine ih ?_ h
        obtain ⟨front, rfl, d, hh, -⟩ := ha
        refine ⟨front ++ [t], by simp, ?_, by simp [Expr.height, hh], hb⟩
        simpa [hk] using d.factorial
      · simp only [Except.ok.injEq, Prod.mk.injEq] at h
        obtain ⟨rfl, rfl⟩ := h
        exact ha

theorem power_sound {unary : Production Subtree}
    (hu : Sound limit .unary (depth + 1) unary) : Sound limit .power depth (power unary) := by
  intro ts node rest h
  obtain ⟨⟨atom, ts'⟩, ha, h⟩ := bind_eq_ok.1 h
  obtain ⟨⟨base, ts''⟩, hb, h⟩ := bind_eq_ok.1 h
  have hbase : Reads limit .factorial depth ts base ts'' :=
    factorials_sound ((primary_sound (sums_sound hu) _ _ _ ha).imp fun _ => .ofPrimary) hb
  dsimp only at h
  split at h
  · rename_i hp
    obtain ⟨⟨exponent, rest'⟩, hx, h⟩ := bind_eq_ok.1 h
    obtain ⟨t, ht, hk⟩ := eq_cons_of_peek hp (by simp)
    rw [ht] at hbase
    refine hbase.binary (hu _ _ _ hx) h fun ks ks' dl dr => ?_
    simpa only [hk] using dl.pow dr
  · simp only [Except.ok.injEq, Prod.mk.injEq] at h
    obtain ⟨rfl, rfl⟩ := h
    exact hbase.imp fun _ => .ofFactorial

theorem unary_sound {nesting : Nat} (hd : depth + nesting = limit + 1) :
    Sound limit .unary depth (unary nesting) := by
  induction nesting generalizing depth with
  | zero => intro ts node rest h; cases h
  | succ nesting ih =>
      have hu : Sound limit .unary (depth + 1) (unary nesting) := ih (by omega)
      intro ts node rest h
      simp only [unary] at h
      split at h
      · rename_i hp
        obtain ⟨⟨operand, rest'⟩, ho, h⟩ := bind_eq_ok.1 h
        obtain ⟨hb, rfl, rfl⟩ := raise_eq_ok.1 h
        obtain ⟨t, ht, hk⟩ := eq_cons_of_peek hp (by simp)
        obtain ⟨front, hfr, d, hh, -⟩ := hu _ _ _ ho
        refine ⟨t :: front, ?_, ?_, by simp [Expr.height, hh], hb⟩
        · rw [ht, hfr]
          simp
        · simpa [hk] using d.neg (by omega)
      · exact (power_sound hu _ _ _ h).imp fun _ => .ofPower (by omega)

end Reckon.Grammar
