import Reckon.Proofs.Expr.Soundness

/-!
A production takes a whole phrase whenever the token behind it cannot belong to
it. Together with soundness this makes the descent a recogniser of the grammar, so
a sequence of tokens has at most one tree.

Heights are checked where a node is built. As a tree is at least as tall as its
subtrees, all these checks pass exactly when the whole tree is low enough.
-/

namespace Reckon.Grammar
open Reckon.Parser

variable {limit depth : Nat} {form : Form} {ks : List Token.Kind} {e : Expr}

/-- The tokens that a finished phrase of the form would still take in. A name takes
in a bracket. -/
def Form.absorbed : Form → List Token.Kind
  | .primary => [.openParen]
  | .factorial => [.openParen, .bang]
  | .power | .unary => [.openParen, .bang, .caret]
  | .product => [.openParen, .bang, .caret, .star, .slash]
  | .sum => [.openParen, .bang, .caret, .star, .slash, .plus, .minus]

/-- The form that a phrase is made of before its own operators are taken in. -/
def Form.inner : Form → Form
  | .sum => .product
  | .product => .unary
  | .factorial => .primary
  | form => form

/-- The next token ends a phrase of the form. -/
def Ends (form : Form) (rest : List Token) : Prop := peek rest ∉ form.absorbed

theorem Ends.mono {form' : Form} {rest : List Token} (h : Ends form rest)
    (hs : form'.absorbed ⊆ form.absorbed) : Ends form' rest :=
  fun hm => h (hs hm)

/-- The production of the form has come as far as the subtree. What loops over
operators may still take in more of what is left. -/
def Reaches (limit depth : Nat) (ts : List Token) (node : Subtree) (rest : List Token) :
    Form → Prop
  | .sum => ∃ bound, rest.length ≤ bound ∧
      sums (unary (limit + 1 - depth)) ts =
        joined sumOperator? (products (unary (limit + 1 - depth))) bound node rest
  | .product => ∃ bound, rest.length ≤ bound ∧
      products (unary (limit + 1 - depth)) ts =
        joined productOperator? (unary (limit + 1 - depth)) bound node rest
  | .unary => unary (limit + 1 - depth) ts = .ok (node, rest)
  | .power => power (unary (limit - depth)) ts = .ok (node, rest)
  | .factorial =>
      (primary (sums (unary (limit - depth))) ts >>= fun (atom, rest) => factorials atom rest) =
        factorials node rest
  | .primary => primary (sums (unary (limit - depth))) ts = .ok (node, rest)

/-- Every phrase of the form for the tree takes the production as far as that, if the tree is low
enough and the next token ends it. -/
def Arrives (limit : Nat) (form : Form) (depth : Nat) (ks : List Token.Kind) (e : Expr) : Prop :=
  ∀ front rest, front.map (·.kind) = ks → e.height ≤ maxHeight → Ends form.inner rest →
    Reaches limit depth (front ++ rest) ⟨e, e.height⟩ rest form

theorem raise_ok {e : Expr} {below : Nat} {rest : List Token} (h : below + 1 ≤ maxHeight) :
    raise e below rest = .ok (⟨e, below + 1⟩, rest) :=
  raise_eq_ok.2 ⟨h, rfl, rfl⟩

theorem joined_of_none {operator? : Token.Kind → Option Operator}
    {operand : Production Subtree} {bound : Nat} {node : Subtree} {rest : List Token}
    (h : operator? (peek rest) = none) :
    joined operator? operand bound node rest = .ok (node, rest) := by
  cases bound with
  | zero => rfl
  | succ bound => simp [joined, h]

theorem chain_start {operator? : Token.Kind → Option Operator} {operand : Production Subtree}
    {ts rest : List Token} {node : Subtree} (h : operand ts = .ok (node, rest)) :
    ∃ bound, rest.length ≤ bound ∧
      chain operator? operand ts = joined operator? operand bound node rest :=
  ⟨rest.length, Nat.le_refl _, by simp [chain, h]⟩

/-- One turn of the loop. The bound never runs out, since each turn takes a token. -/
theorem chain_step {operator? : Token.Kind → Option Operator} {operand : Production Subtree}
    {ts front rest : List Token} {t : Token} {op : Operator} {l r : Expr}
    (h : ∃ bound, (t :: (front ++ rest)).length ≤ bound ∧
      chain operator? operand ts =
        joined operator? operand bound ⟨l, l.height⟩ (t :: (front ++ rest)))
    (hop : operator? t.kind = some op)
    (hr : operand (front ++ rest) = .ok (⟨r, r.height⟩, rest))
    (hh : (Expr.binary op l r).height ≤ maxHeight) :
    ∃ bound, rest.length ≤ bound ∧
      chain operator? operand ts =
        joined operator? operand bound
          ⟨.binary op l r, (Expr.binary op l r).height⟩ rest := by
  obtain ⟨bound, hb, h⟩ := h
  cases bound with
  | zero => simp at hb
  | succ bound =>
      refine ⟨bound, ?_, ?_⟩
      · simp only [List.length_cons, List.length_append] at hb
        omega
      · rw [h]
        simp only [Expr.height] at hh
        simp [joined, peek, hop, hr, raise_ok hh, Expr.height]

theorem sums_complete {ts rest : List Token} {node : Subtree}
    (h : Reaches limit depth ts node rest .sum) (he : Ends .sum rest) :
    sums (unary (limit + 1 - depth)) ts = .ok (node, rest) := by
  obtain ⟨bound, -, h⟩ := h
  rw [h]
  refine joined_of_none ?_
  simp only [Ends, Form.absorbed, List.mem_cons, not_or] at he
  cases hk : peek rest <;> simp_all [sumOperator?]

theorem products_complete {ts rest : List Token} {node : Subtree}
    (h : Reaches limit depth ts node rest .product) (he : Ends .product rest) :
    products (unary (limit + 1 - depth)) ts = .ok (node, rest) := by
  obtain ⟨bound, -, h⟩ := h
  rw [h]
  refine joined_of_none ?_
  simp only [Ends, Form.absorbed, List.mem_cons, not_or] at he
  cases hk : peek rest <;> simp_all [productOperator?]

theorem factorials_of_ne {node : Subtree} {rest : List Token} (h : peek rest ≠ .bang) :
    factorials node rest = .ok (node, rest) := by
  cases rest with
  | nil => rfl
  | cons t rest =>
      have ht : t.kind ≠ .bang := h
      simp [factorials, ht]

theorem length_le_separated (items : List (List Token.Kind)) :
    items.length ≤ (separated items).length + 1 := by
  induction items with
  | nil => simp
  | cons ks rest ih =>
      cases rest with
      | nil => simp
      | cons ks' rest =>
          simp only [separated_cons_cons, List.length_cons, List.length_append] at ih ⊢
          omega

/-- The production takes a phrase for the tree, whatever ends the phrase. -/
def Completes (p : Production Subtree) (ks : List Token.Kind) (e : Expr) : Prop :=
  ∀ front rest, front.map (·.kind) = ks → Ends .sum rest →
    p (front ++ rest) = .ok (⟨e, e.height⟩, rest)

theorem entries_complete {entry : Production Subtree} {closer : Token.Kind} {opener : Char}
    {opened bound : Nat} {pairs : List (List Token.Kind × Expr)}
    {front rest : List Token} {t : Token} (found : List Expr) (height : Nat)
    (hs : ∀ pair ∈ pairs, Completes entry pair.1 pair.2) (hne : pairs ≠ [])
    (ht : t.kind = closer) (hend : closer ∉ Form.sum.absorbed) (hcomma : closer ≠ .comma)
    (hf : front.map (·.kind) = separated (pairs.map (·.1))) (hb : pairs.length ≤ bound) :
    entries entry closer opener opened bound found height (front ++ t :: rest) =
      .ok ((found.reverse ++ pairs.map (·.2),
        max height (Expr.heights (pairs.map (·.2)))), rest) := by
  induction pairs generalizing front bound found height with
  | nil => exact absurd rfl hne
  | cons pair pairs ih =>
      cases bound with
      | zero => simp at hb
      | succ bound =>
          have hp := hs pair (by simp)
          cases pairs with
          | nil =>
              have hr := hp front (t :: rest) (by simpa using hf) (by simpa [Ends, peek, ht])
              simp [entries, hr, close, peek, ht, hcomma, Expr.heights]
          | cons pair' pairs =>
              simp only [List.map_cons, separated_cons_cons, List.map_eq_append_iff,
                List.map_eq_cons_iff] at hf
              obtain ⟨f, -, rfl, hf, c, f', rfl, hc, hf'⟩ := hf
              have hr := hp f (c :: (f' ++ t :: rest)) hf
                (by simp [Ends, peek, hc, Form.absorbed])
              have hrest := ih (pair.2 :: found) (max height pair.2.height)
                (fun p hm => hs p (List.mem_cons_of_mem _ hm)) (by simp)
                (by simpa using hf') (by simpa using hb)
              simp only [List.append_assoc, List.cons_append, entries, hr, ok_bind, peek, hc,
                if_true, List.tail_cons, hrest]
              simp [Expr.heights, Nat.max_assoc]

theorem items_complete {entry : Production Subtree} {closer : Token.Kind}
    {pairs : List (List Token.Kind × Expr)} {front : List Token} {t : Token} (opener : Char)
    (opened : Nat) (rest : List Token) (hs : ∀ pair ∈ pairs, Completes entry pair.1 pair.2)
    (ht : t.kind = closer) (hend : closer ∉ Form.sum.absorbed) (hcomma : closer ≠ .comma)
    (hopen : ∀ pair ∈ pairs, ∃ k ks, pair.1 = k :: ks ∧ k ≠ closer)
    (hf : front.map (·.kind) = separated (pairs.map (·.1))) :
    items entry closer opener opened (front ++ t :: rest) =
      .ok ((pairs.map (·.2), Expr.heights (pairs.map (·.2))), rest) := by
  cases pairs with
  | nil =>
      simp only [List.map_nil, separated_nil, List.map_eq_nil_iff] at hf
      simp [hf, items, peek, ht, Expr.heights]
  | cons pair pairs =>
      have hpeek : peek (front ++ t :: rest) ≠ closer := by
        obtain ⟨k, ks, hk, hne⟩ := hopen pair (by simp)
        have hfront : ∃ ks', front.map (·.kind) = k :: ks' := by
          cases pairs with
          | nil => exact ⟨ks, by simpa [hk] using hf⟩
          | cons pair' pairs => exact ⟨_, by rw [hf]; simp [hk]; rfl⟩
        obtain ⟨ks', hks⟩ := hfront
        obtain ⟨c, f, rfl, rfl, -⟩ := List.map_eq_cons_iff.1 hks
        exact hne
      have hb : (pair :: pairs).length ≤ (front ++ t :: rest).length := by
        have hlen := length_le_separated ((pair :: pairs).map (·.1))
        rw [← hf] at hlen
        simp only [List.length_map, List.length_append, List.length_cons] at hlen ⊢
        omega
      simp only [items, if_neg hpeek]
      simpa using entries_complete [] 0 hs (by simp) ht hend hcomma hf hb

theorem height_le_heights {es : List Expr} (h : e ∈ es) : e.height ≤ Expr.heights es := by
  induction es with
  | nil => simp at h
  | cons e' es ih =>
      simp only [Expr.heights]
      obtain rfl | h := List.mem_cons.1 h
      · exact Nat.le_max_left _ _
      · exact Nat.le_trans (ih h) (Nat.le_max_right _ _)

/-- The entries of a call or a list are taken whole. -/
theorem completes_entries {pairs : List (List Token.Kind × Expr)}
    (ih : ∀ pair ∈ pairs, Arrives limit .sum (depth + 1) pair.1 pair.2)
    (hh : Expr.heights (pairs.map (·.2)) + 1 ≤ maxHeight) :
    ∀ pair ∈ pairs, Completes (sums (unary (limit - depth))) pair.1 pair.2 := by
  intro pair hm front rest hf he
  have hheight : pair.2.height ≤ Expr.heights (pairs.map (·.2)) :=
    height_le_heights (List.mem_map_of_mem hm)
  have hprod : Ends .product rest := by
    simp only [Ends, Form.absorbed, List.mem_cons, not_or] at he ⊢
    simp [he]
  have h := sums_complete (ih pair hm front rest hf (by omega) hprod) he
  rwa [Nat.add_sub_add_right] at h

theorem unary_succ (h : depth ≤ limit) : limit + 1 - depth = (limit - depth) + 1 := by
  omega

/-- The base of a power, once what stands behind it is no factorial sign. -/
theorem base_complete {ts rest : List Token} {node : Subtree}
    (h : Reaches limit depth ts node rest .factorial) (he : Ends .factorial rest) :
    (primary (sums (unary (limit - depth))) ts >>= fun (atom, rest) => factorials atom rest) =
      .ok (node, rest) := by
  simp only [Reaches] at h
  rw [h]
  simp only [Ends, Form.absorbed, List.mem_cons, not_or] at he
  exact factorials_of_ne he.2.1

theorem power_eq_bind (unary : Production Subtree) (ts : List Token) :
    power unary ts =
      ((primary (sums unary) ts >>= fun (atom, rest) => factorials atom rest) >>=
        fun (base, rest) =>
          if peek rest = .caret then do
            let (exponent, rest) ← unary rest.tail
            raise (.binary .pow base.expr exponent.expr) (max base.height exponent.height) rest
          else .ok (base, rest)) := by
  simp only [power]
  cases primary (sums unary) ts <;> rfl

theorem split_kinds {front : List Token} {ks ks' : List Token.Kind} {k : Token.Kind}
    (h : front.map (·.kind) = ks ++ k :: ks') :
    ∃ f t f', front = f ++ t :: f' ∧ f.map (·.kind) = ks ∧ t.kind = k ∧
      f'.map (·.kind) = ks' := by
  obtain ⟨f, tail, rfl, hf, htail⟩ := List.map_eq_append_iff.1 h
  obtain ⟨t, f', rfl, ht, hf'⟩ := List.map_eq_cons_iff.1 htail
  exact ⟨f, t, f', rfl, hf, ht, hf'⟩

section Productions

variable {ks' : List Token.Kind} {k : Token.Kind} {op : Operator} {l r : Expr}

theorem heights_le_of_binary {bound : Nat} (h : (Expr.binary op l r).height ≤ bound) :
    l.height ≤ bound ∧ r.height ≤ bound := by
  simp only [Expr.height] at h
  omega

theorem Arrives.ofProduct (h : Arrives limit .product depth ks e) :
    Arrives limit .sum depth ks e := by
  intro front rest hf hh he
  have hu : Ends .unary rest := he.mono (by simp [Form.absorbed, Form.inner])
  exact chain_start (products_complete (h front rest hf hh hu) he)

theorem Arrives.sum_binary (hop : sumOperator? k = some op) (hl : Arrives limit .sum depth ks l)
    (hr : Arrives limit .product depth ks' r) :
    Arrives limit .sum depth (ks ++ k :: ks') (.binary op l r) := by
  intro front rest hf hh he
  obtain ⟨f, t, f', rfl, hleft, rfl, hright⟩ := split_kinds hf
  obtain ⟨hlh, hrh⟩ := heights_le_of_binary hh
  have hends : t.kind ∉ Form.product.absorbed := by
    cases hk : t.kind <;> simp_all [sumOperator?, Form.absorbed]
  have hu : Ends .unary rest := he.mono (by simp [Form.absorbed, Form.inner])
  rw [List.append_assoc, List.cons_append]
  exact chain_step (hl f (t :: (f' ++ rest)) hleft hlh hends) hop
    (products_complete (hr f' rest hright hrh hu) he) hh

theorem Arrives.ofUnary (h : Arrives limit .unary depth ks e) :
    Arrives limit .product depth ks e :=
  fun front rest hf hh he => chain_start (h front rest hf hh he)

theorem Arrives.product_binary (hop : productOperator? k = some op)
    (hl : Arrives limit .product depth ks l) (hr : Arrives limit .unary depth ks' r) :
    Arrives limit .product depth (ks ++ k :: ks') (.binary op l r) := by
  intro front rest hf hh he
  obtain ⟨f, t, f', rfl, hleft, rfl, hright⟩ := split_kinds hf
  obtain ⟨hlh, hrh⟩ := heights_le_of_binary hh
  have hends : t.kind ∉ Form.unary.absorbed := by
    cases hk : t.kind <;> simp_all [productOperator?, Form.absorbed]
  rw [List.append_assoc, List.cons_append]
  exact chain_step (hl f (t :: (f' ++ rest)) hleft hlh hends) hop
    (hr f' rest hright hrh he) hh

theorem Arrives.ofPower (hd : depth ≤ limit) (d : Derives limit .power depth ks e)
    (h : Arrives limit .power depth ks e) : Arrives limit .unary depth ks e := by
  intro front rest hf hh he
  obtain ⟨k, ks', rfl, -, -, hk⟩ := d.head
  obtain ⟨t, f, rfl, ht, -⟩ := List.map_eq_cons_iff.1 hf
  have hminus : t.kind ≠ .minus := fun hm => by simpa [Form.signed] using hk (ht ▸ hm)
  have hp := h (t :: f) rest hf hh he
  simpa [Reaches, unary_succ hd, unary, peek, hminus] using hp

theorem Arrives.neg (hd : depth ≤ limit) (h : Arrives limit .unary (depth + 1) ks e) :
    Arrives limit .unary depth (.minus :: ks) (.neg e) := by
  intro front rest hf hh he
  obtain ⟨t, f, rfl, ht, hf⟩ := List.map_eq_cons_iff.1 hf
  simp only [Expr.height] at hh
  have ho := h f rest hf (by omega) he
  simp only [Reaches, Nat.add_sub_add_right] at ho ⊢
  simp [unary_succ hd, unary, peek, ht, ho, raise_ok hh, Expr.height]

theorem Arrives.ofFactorial (h : Arrives limit .factorial depth ks e) :
    Arrives limit .power depth ks e := by
  intro front rest hf hh he
  have hp : Ends .primary rest := he.mono (by simp [Form.absorbed, Form.inner])
  have hb := base_complete (h front rest hf hh hp)
    (he.mono (by simp [Form.absorbed, Form.inner]))
  have hcaret : peek rest ≠ .caret := by
    simp only [Ends, Form.inner, Form.absorbed, List.mem_cons, not_or] at he
    exact he.2.2.1
  simp only [Reaches]
  rw [power_eq_bind, hb]
  simp [hcaret]

theorem Arrives.pow (hl : Arrives limit .factorial depth ks l)
    (hr : Arrives limit .unary (depth + 1) ks' r) :
    Arrives limit .power depth (ks ++ .caret :: ks') (.binary .pow l r) := by
  intro front rest hf hh he
  obtain ⟨f, t, f', rfl, hleft, ht, hright⟩ := split_kinds hf
  simp only [Expr.height] at hh
  have hb := base_complete (hl f (t :: (f' ++ rest)) hleft (by omega)
    (by simp [Ends, peek, ht, Form.absorbed, Form.inner]))
    (by simp [Ends, peek, ht, Form.absorbed])
  have hx := hr f' rest hright (by omega) he
  simp only [Reaches, Nat.add_sub_add_right] at hx ⊢
  rw [List.append_assoc, List.cons_append, power_eq_bind, hb]
  simp [peek, ht, hx, raise_ok hh, Expr.height]

theorem Arrives.ofPrimary (h : Arrives limit .primary depth ks e) :
    Arrives limit .factorial depth ks e := by
  intro front rest hf hh he
  have hp := h front rest hf hh he
  simp only [Reaches] at hp ⊢
  rw [hp]
  rfl

theorem Arrives.factorial (h : Arrives limit .factorial depth ks e) :
    Arrives limit .factorial depth (ks ++ [.bang]) (.factorial e) := by
  intro front rest hf hh _
  obtain ⟨f, t, f', rfl, hoperand, ht, hnil⟩ := split_kinds hf
  obtain rfl := List.map_eq_nil_iff.1 hnil
  simp only [Expr.height] at hh
  have hp := h f (t :: rest) hoperand (by omega)
    (by simp [Ends, peek, ht, Form.absorbed, Form.inner])
  simp only [Reaches] at hp ⊢
  rw [List.append_assoc, List.singleton_append, hp]
  simp [factorials, ht, raise_ok hh, Expr.height]

theorem arrives_number (value : Binary64) :
    Arrives limit .primary depth [.number value] (.number value) := by
  intro front rest hf _ _
  obtain ⟨t, f, rfl, ht, hf⟩ := List.map_eq_cons_iff.1 hf
  obtain rfl := List.map_eq_nil_iff.1 hf
  simp [Reaches, primary, ht, Expr.height]

theorem arrives_var {name : String} (hn : Builtin.ofName? name = none) :
    Arrives limit .primary depth [.identifier name] (.var name) := by
  intro front rest hf _ he
  obtain ⟨t, f, rfl, ht, hf⟩ := List.map_eq_cons_iff.1 hf
  obtain rfl := List.map_eq_nil_iff.1 hf
  have hopen : peek rest ≠ .openParen := by simpa [Ends, Form.absorbed, Form.inner] using he
  simp [Reaches, primary, ht, hopen, hn, Expr.height]

theorem Arrives.group (h : Arrives limit .sum (depth + 1) ks e) :
    Arrives limit .primary depth (.openParen :: (ks ++ [.closeParen])) e := by
  intro front rest hf hh _
  obtain ⟨t, f, rfl, ht, hf⟩ := List.map_eq_cons_iff.1 hf
  obtain ⟨f, c, f', rfl, hinner, hc, hnil⟩ := split_kinds hf
  obtain rfl := List.map_eq_nil_iff.1 hnil
  have hs := sums_complete
    (h f (c :: rest) hinner hh (by simp [Ends, peek, hc, Form.absorbed, Form.inner]))
    (by simp [Ends, peek, hc, Form.absorbed])
  rw [Nat.add_sub_add_right] at hs
  simp [Reaches, primary, ht, hs, close, peek, hc]

section Entries

variable {pairs : List (List Token.Kind × Expr)}

theorem arrives_call {func : String} {f : Builtin} (hb : Builtin.ofName? func = some f)
    (h : ∀ pair ∈ pairs, Arrives limit .sum (depth + 1) pair.1 pair.2)
    (hopen : ∀ pair ∈ pairs, ∃ k ks, pair.1 = k :: ks ∧ k ≠ .closeParen) :
    Arrives limit .primary depth (.identifier func :: .openParen ::
      (separated (pairs.map (·.1)) ++ [.closeParen])) (.call func (pairs.map (·.2))) := by
  intro front rest hf hh _
  obtain ⟨t, f, rfl, ht, hf⟩ := List.map_eq_cons_iff.1 hf
  obtain ⟨p, f, rfl, hp, hf⟩ := List.map_eq_cons_iff.1 hf
  obtain ⟨f, c, f', rfl, hentries, hc, hnil⟩ := split_kinds hf
  obtain rfl := List.map_eq_nil_iff.1 hnil
  simp only [Expr.height] at hh
  have hi := items_complete '(' p.position rest (completes_entries h hh) hc
    (by simp [Form.absorbed]) (by simp) hopen hentries
  simp [Reaches, primary, peek, ht, hp, hb, position, hi, raise_ok hh, Expr.height]

theorem arrives_list (h : ∀ pair ∈ pairs, Arrives limit .sum (depth + 1) pair.1 pair.2)
    (hopen : ∀ pair ∈ pairs, ∃ k ks, pair.1 = k :: ks ∧ k ≠ .closeBracket) :
    Arrives limit .primary depth (.openBracket ::
      (separated (pairs.map (·.1)) ++ [.closeBracket])) (.list (pairs.map (·.2))) := by
  intro front rest hf hh _
  obtain ⟨t, f, rfl, ht, hf⟩ := List.map_eq_cons_iff.1 hf
  obtain ⟨f, c, f', rfl, hentries, hc, hnil⟩ := split_kinds hf
  obtain rfl := List.map_eq_nil_iff.1 hnil
  simp only [Expr.height] at hh
  have hi := items_complete '[' t.position rest (completes_entries h hh) hc
    (by simp [Form.absorbed]) (by simp) hopen hentries
  simp [Reaches, primary, ht, hi, raise_ok hh, Expr.height]

end Entries

end Productions

theorem Derives.arrives (h : Derives limit form depth ks e) : Arrives limit form depth ks e := by
  induction h with
  | ofProduct _ ih => exact ih.ofProduct
  | add _ _ ihl ihr | sub _ _ ihl ihr => exact ihl.sum_binary rfl ihr
  | ofUnary _ ih => exact ih.ofUnary
  | mul _ _ ihl ihr | div _ _ ihl ihr => exact ihl.product_binary rfl ihr
  | ofPower hd d ih => exact ih.ofPower hd d
  | neg hd _ ih => exact ih.neg hd
  | ofFactorial _ ih => exact ih.ofFactorial
  | pow _ _ ihb ihx => exact ihb.pow ihx
  | ofPrimary _ ih => exact ih.ofPrimary
  | factorial _ ih => exact ih.factorial
  | number value => exact arrives_number value
  | var hn => exact arrives_var hn
  | call hb d ih => exact arrives_call hb ih fun pair hm => (d pair hm).head_ne_closeParen
  | group _ ih => exact ih.group
  | list d ih => exact arrives_list ih fun pair hm => (d pair hm).head_ne_closeBracket

end Reckon.Grammar
