import Reckon.Proofs.Expr.Machine
import Reckon.Proofs.Expr.Relocation
import Reckon.Proofs.Token.Kinds

/-!
The descent ends and does what the productions do that recurse on the nesting that is left: the
counter bounds the nesting, and every turn of a loop takes a token. What is noted of the calls on
the way is an invariant of every step. How large the trees are is not asked here.
-/

namespace Reckon.Descent
open Reckon.Parser

variable {α β : Type}

section Steps

/-- A call within the bounds: it was entered at a depth that may be, the depth is what it was when
it returns, and if it found something it took a token and knows the height of what it found. -/
structure Call.Bounded (call : Call) : Prop where
  depth_le : call.depth ≤ maxNesting
  depthLeft : call.depthLeft = call.depth
  found : ∀ trees height, call.outcome = .ok (trees, height) →
    (∃ front, front ≠ [] ∧ call.entered = front ++ call.left) ∧ height = Expr.heights trees

variable {m m' m'' : Machine}

/-- What every step keeps: the depth, and that all calls are within the bounds. -/
structure Steady (m m' : Machine) : Prop where
  depth : m'.depth = m.depth
  calls : ∃ calls, m'.calls = calls ++ m.calls ∧ ∀ call ∈ calls, call.Bounded

/-- A step that leaves some end of the tokens, with the end of the text still ahead. -/
structure Passed (m m' : Machine) : Prop extends Steady m m' where
  rest : m'.rest <:+ m.rest
  ended : Ended m'.rest

theorem Steady.refl (m : Machine) : Steady m m := ⟨rfl, [], rfl, List.forall_mem_nil _⟩

theorem Steady.trans (h : Steady m m') (h' : Steady m' m'') : Steady m m'' := by
  obtain ⟨calls, hcalls, hbounded⟩ := h.calls
  obtain ⟨calls', hcalls', hbounded'⟩ := h'.calls
  refine ⟨h'.depth.trans h.depth, calls' ++ calls, ?_, ?_⟩
  · rw [hcalls', hcalls, List.append_assoc]
  · exact List.forall_mem_append.2 ⟨hbounded', hbounded⟩

theorem Passed.refl (h : Ended m.rest) : Passed m m := ⟨.refl m, List.suffix_rfl, h⟩

theorem Passed.trans (h : Passed m m') (h' : Passed m' m'') : Passed m m'' :=
  ⟨h.toSteady.trans h'.toSteady, h'.rest.trans h.rest, h'.ended⟩

/-- Work at a machine ends with what a production makes of its tokens. -/
inductive Comes (m : Machine) (run : Option (Except Failure α × Machine))
    (made : Except Failure (α × List Token)) : Prop where
  | ok (x : α) (m' : Machine) : run = some (.ok x, m') → made = .ok (x, m'.rest) → Passed m m' →
      Comes m run made
  | error (f : Failure) (m' : Machine) : run = some (.error f, m') → made = .error f →
      Steady m m' → Comes m run made

/-- At this depth, and with turns for all tokens, the work does what the production does. -/
def Follows (turns depth : Nat) (p : Run α) (q : Production α) : Prop :=
  ∀ m, m.depth = depth → Ended m.rest → m.rest.length < turns → Comes m (p m) (q m.rest)

variable {made : Except Failure (α × List Token)}

theorem Comes.after {run : Option (Except Failure α × Machine)} (h : Passed m m')
    (h' : Comes m' run made) : Comes m run made := by
  cases h' with
  | ok x m'' hrun hmade hpassed => exact .ok x m'' hrun hmade (h.trans hpassed)
  | error f m'' hrun hmade hsteady => exact .error f m'' hrun hmade (h.toSteady.trans hsteady)

theorem Comes.bind {p : Run α} {f : α → Run β}
    {g : α × List Token → Except Failure (β × List Token)} (h : Comes m (p m) made)
    (hf : ∀ x m', made = .ok (x, m'.rest) → Passed m m' → Comes m' (f x m') (g (x, m'.rest))) :
    Comes m ((p >>= f) m) (made >>= g) := by
  cases h with
  | ok x m' hrun hmade hpassed =>
      rw [bind_of_ok hrun, hmade]
      exact (hf x m' hmade hpassed).after hpassed
  | error failure m' hrun hmade hsteady =>
      exact .error failure m' (bind_of_error hrun) (by rw [hmade]; rfl) hsteady

theorem comes_ite {c : Prop} [Decidable c] {p p' : Run α}
    {made' : Except Failure (α × List Token)} (h : c → Comes m (p m) made)
    (h' : ¬ c → Comes m (p' m) made') :
    Comes m ((if c then p else p') m) (if c then made else made') := by
  split
  · rename_i hc
    exact h hc
  · rename_i hc
    exact h' hc

theorem comes_pure (h : Ended m.rest) (x : α) :
    Comes m ((pure x : Run α) m) (.ok (x, m.rest)) :=
  .ok x m rfl rfl (.refl h)

theorem comes_throw (f : Failure) : Comes m ((throw f : Run α) m) (.error f) :=
  .error f m rfl rfl (.refl m)

theorem passed_advance (h : Ended m.rest) (hp : peek m.rest ≠ .stop) :
    Passed m { m with rest := m.rest.tail } :=
  ⟨⟨rfl, [], rfl, List.forall_mem_nil _⟩, List.tail_suffix _, h.tail hp⟩

theorem comes_advance {f : Unit → Run α} (h : Ended m.rest) (hp : peek m.rest ≠ .stop)
    (hf : Comes { m with rest := m.rest.tail } (f () { m with rest := m.rest.tail }) made) :
    Comes m ((advance >>= f) m) made := by
  rw [advance_bind]
  exact hf.after (passed_advance h hp)

theorem comes_grow (h : Ended m.rest) (e : Expr) (below : Nat) :
    Comes m (grow e below m) (raise e below m.rest) := by
  unfold grow raise
  split
  · exact comes_throw _
  · exact comes_pure h _

theorem comes_closing {closer : Token.Kind} {opener : Char} {opened : Nat} {f : Unit → Run α}
    {g : List Token → Except Failure (α × List Token)} (h : Ended m.rest) (hc : closer ≠ .stop)
    (hf : ∀ m', Passed m m' → Comes m' (f () m') (g m'.rest)) :
    Comes m ((closing closer opener opened >>= f) m)
      (close closer opener opened m.rest >>= g) := by
  by_cases hp : peek m.rest = closer
  · have hrun : closing closer opener opened m =
        some (.ok (), { m with rest := m.rest.tail }) := by
      rw [closing, next_bind, if_pos hp]
      rfl
    have hpassed := passed_advance h (hp ▸ hc)
    rw [bind_of_ok hrun, close, if_pos hp, ok_bind]
    exact (hf _ hpassed).after hpassed
  · have hrun : closing closer opener opened m =
        some (.error (if peek m.rest = .stop then .of (.parse opened (.unclosed opener))
          else Parser.unexpected m.rest), m) := by
      rw [closing, next_bind, if_neg hp, next_bind]
      split <;> rfl
    refine .error _ m (bind_of_error hrun) ?_ (.refl m)
    rw [close, if_neg hp]
    split <;> rfl

theorem comes_called {p : Run α} {found : α → List Expr × Nat} (hd : m.depth ≤ maxNesting)
    (h : Comes m (p m) made)
    (hfound : ∀ x rest, made = .ok (x, rest) →
      (∃ front, front ≠ [] ∧ m.rest = front ++ rest) ∧ (found x).2 = Expr.heights (found x).1) :
    Comes m (called found p m) made := by
  have hreturned {m' : Machine} {outcome : Except Failure (List Expr × Nat)}
      (hsteady : Steady m m')
      (hbounded : Call.Bounded ⟨m.rest, m.depth, outcome, m'.rest, m'.depth⟩) :
      Steady m (returned m m' outcome) := by
    obtain ⟨calls, hcalls, hall⟩ := hsteady.calls
    refine ⟨hsteady.depth, _ :: calls, congrArg (_ :: ·) hcalls, ?_⟩
    exact List.forall_mem_cons.2 ⟨hbounded, hall⟩
  cases h with
  | ok x m' hrun hmade hpassed =>
      have hbounded : Call.Bounded
          ⟨m.rest, m.depth, (Except.ok x).map found, m'.rest, m'.depth⟩ := by
        refine ⟨hd, hpassed.depth, fun trees height hout => ?_⟩
        have hout' : found x = (trees, height) := Except.ok.inj hout
        have hx := hfound x m'.rest hmade
        rwa [hout'] at hx
      exact .ok x _ (called_eq hrun) hmade
        ⟨hreturned hpassed.toSteady hbounded, hpassed.rest, hpassed.ended⟩
  | error f m' hrun hmade hsteady =>
      exact .error f _ (called_eq hrun) hmade (hreturned hsteady ⟨hd, hsteady.depth, nofun⟩)

theorem comes_deeper {p : Run α} (h : Comes { m with depth := m.depth + 1 }
    (p { m with depth := m.depth + 1 }) made) : Comes m (deeper p m) made := by
  cases h with
  | ok x m' hrun hmade hpassed =>
      refine .ok x _ (deeper_eq hrun) hmade ⟨⟨?_, hpassed.calls⟩, hpassed.rest, hpassed.ended⟩
      exact congrArg (· - 1) hpassed.depth
  | error f m' hrun hmade hsteady =>
      exact .error f _ (deeper_eq hrun) hmade ⟨congrArg (· - 1) hsteady.depth, hsteady.calls⟩

end Steps

section Productions

variable {turns depth limit : Nat}

theorem Passed.ready {m m' : Machine} (h : Passed m m') (hd : m.depth = depth)
    (ht : m.rest.length < turns) :
    m'.depth = depth ∧ Ended m'.rest ∧ m'.rest.length < turns :=
  ⟨h.depth.trans hd, h.ended, Nat.lt_of_le_of_lt h.rest.length_le ht⟩

theorem not_ended_of_length_le_zero {ts : List Token} (h : ts.length ≤ 0) : ¬ Ended ts := by
  obtain rfl := List.eq_nil_of_length_eq_zero (Nat.le_zero.1 h)
  exact nofun

theorem length_tail_lt {ts : List Token} (h : Ended ts) : ts.tail.length < ts.length := by
  obtain ⟨t, hm, -⟩ := h
  rw [List.length_tail]
  exact Nat.sub_lt (List.length_pos_of_mem hm) Nat.one_pos

theorem found_of_reads {form : Grammar.Form} {ts rest : List Token} {node : Subtree}
    (h : Grammar.Reads limit form depth ts node rest) :
    (∃ front, front ≠ [] ∧ ts = front ++ rest) ∧
      (single node).2 = Expr.heights (single node).1 := by
  obtain ⟨front, hts, d, hheight, -⟩ := h
  refine ⟨⟨front, ?_, hts⟩, ?_⟩
  · rintro rfl
    obtain ⟨_, _, hhead, -⟩ := d.head
    cases hhead
  · simp [single, Expr.heights, hheight]

theorem follows_called {p : Run Subtree} {q : Production Subtree} {form : Grammar.Form}
    {depth' : Nat} (hd : depth ≤ maxNesting) (hs : Grammar.Sound limit form depth' q)
    (h : Follows turns depth p q) : Follows turns depth (called single p) q := by
  intro m hm he ht
  exact comes_called (hm ▸ hd) (h m hm he ht) fun node rest hmade =>
    found_of_reads (hs _ _ _ hmade)

section Chains

variable {operator? : Token.Kind → Option Operator} {operand : Run Subtree}
  {operand' : Production Subtree}

theorem comes_joined (hs : ∀ {k op}, operator? k = some op → k ≠ .stop)
    (ho : Follows turns depth operand operand') {left bound : Nat} {first : Subtree} {m : Machine}
    (hd : m.depth = depth) (he : Ended m.rest) (ht : m.rest.length < turns)
    (hleft : m.rest.length < left) (hb : m.rest.length ≤ bound) :
    Comes m (joined operator? operand left first m)
      (Parser.joined operator? operand' bound first m.rest) := by
  induction left generalizing bound first m with
  | zero => exact absurd hleft (Nat.not_lt_zero _)
  | succ left ih =>
      cases bound with
      | zero => exact absurd he (not_ended_of_length_le_zero hb)
      | succ bound =>
          rw [joined, Parser.joined, next_bind]
          cases hop : operator? (peek m.rest) with
          | none => exact comes_pure he first
          | some op =>
              have hlt := length_tail_lt he
              refine comes_advance he (hs hop) ?_
              refine (ho { m with rest := m.rest.tail } hd (he.tail (hs hop))
                (hlt.trans ht)).bind fun right m' _ hright => ?_
              refine (comes_grow hright.ended _ _).bind fun node m'' _ hnode => ?_
              obtain ⟨hd', he', ht'⟩ := (hright.trans hnode).ready hd (hlt.trans ht)
              have hle := (hright.trans hnode).rest.length_le
              dsimp only at hle
              exact ih hd' he' ht' (by omega) (by omega)

theorem follows_chain {form : Grammar.Form}
    (hd : depth ≤ maxNesting) (hs : ∀ {k op}, operator? k = some op → k ≠ .stop)
    (ho : Follows turns depth operand operand')
    (hsound : Grammar.Sound limit form depth (Parser.chain operator? operand')) :
    Follows turns depth (chain operator? turns operand) (Parser.chain operator? operand') := by
  refine follows_called hd hsound fun m hm he ht => ?_
  refine (ho m hm he ht).bind fun first m' _ hfirst => ?_
  obtain ⟨hd', he', ht'⟩ := hfirst.ready hm ht
  exact comes_joined hs ho hd' he' ht' ht' le_rfl

end Chains

section Unary

variable {unary : Run Subtree} {unary' : Production Subtree}

theorem follows_product (hd : depth ≤ maxNesting) (hu : Follows turns depth unary unary')
    (hs : Grammar.Sound limit .unary depth unary') :
    Follows turns depth (product turns unary) (products unary') :=
  follows_chain hd Grammar.ne_stop_of_productOperator hu (Grammar.products_sound hs)

theorem follows_sum (hd : depth ≤ maxNesting) (hu : Follows turns depth unary unary')
    (hs : Grammar.Sound limit .unary depth unary') :
    Follows turns depth (sum turns unary) (sums unary') :=
  follows_chain hd Grammar.ne_stop_of_sumOperator (follows_product hd hu hs)
    (Grammar.sums_sound hs)

end Unary

section Sum

variable {sum : Run Subtree} {sum' : Production Subtree} {closer : Token.Kind} {opener : Char}
  {opened : Nat}

theorem comes_entries (hc : closer ≠ .stop) (hsum : Follows turns depth sum sum')
    {left bound height : Nat} {found : List Expr} {m : Machine}
    (hd : m.depth = depth) (he : Ended m.rest) (ht : m.rest.length < turns)
    (hleft : m.rest.length < left) (hb : m.rest.length ≤ bound) :
    Comes m (entries sum closer opener opened left found height m)
      (Parser.entries sum' closer opener opened bound found height m.rest) := by
  induction left generalizing bound found height m with
  | zero => exact absurd hleft (Nat.not_lt_zero _)
  | succ left ih =>
      cases bound with
      | zero => exact absurd he (not_ended_of_length_le_zero hb)
      | succ bound =>
          rw [entries, Parser.entries]
          refine (hsum m hd he ht).bind fun entry m' _ hentry => ?_
          obtain ⟨hd', he', ht'⟩ := hentry.ready hd ht
          dsimp only
          rw [next_bind]
          refine comes_ite (fun hp => ?_) fun _ =>
            comes_closing he' hc fun m'' hclosed => comes_pure hclosed.ended _
          have hstop : peek m'.rest ≠ .stop := by simp [hp]
          have hlt := length_tail_lt he'
          have hle := hentry.rest.length_le
          refine comes_advance he' hstop ?_
          exact ih hd' (he'.tail hstop) (hlt.trans ht') (by dsimp only; omega)
            (by dsimp only; omega)

theorem follows_items (hd : depth ≤ maxNesting) (hc : closer ≠ .stop)
    (hsum : Follows turns depth sum sum') (hs : Grammar.Sound limit .sum depth sum') :
    Follows turns depth (items turns sum closer opener opened)
      (Parser.items sum' closer opener opened) := by
  intro m hm he ht
  refine comes_called (hm ▸ hd) ?_ fun found rest hmade => ?_
  · rw [next_bind, Parser.items]
    refine comes_ite (fun hp => ?_) fun _ => comes_entries hc hsum hm he ht ht le_rfl
    have hstop : peek m.rest ≠ .stop := hp ▸ hc
    exact comes_advance he hstop (comes_pure (he.tail hstop) _)
  · obtain ⟨hheight, front, t, entries, hts, -⟩ := Grammar.items_sound hs hc hmade
    exact ⟨⟨front ++ [t], by simp, by rw [hts, List.append_assoc]; rfl⟩, hheight⟩

theorem follows_primary (hd : depth + 1 ≤ maxNesting)
    (hsum : Follows turns (depth + 1) sum sum') (hs : Grammar.Sound limit .sum (depth + 1) sum') :
    Follows turns (depth + 1) (primary turns sum) (Parser.primary sum') := by
  refine follows_called hd (Grammar.primary_sound hs) fun m hm he ht => ?_
  rw [get_bind]
  obtain ⟨ts, d, calls⟩ := m
  dsimp only at hm he ht ⊢
  cases ts with
  | nil => exact absurd he (not_ended_of_length_le_zero le_rfl)
  | cons t ts =>
      have hlt : ts.length < turns := (Nat.lt_succ_self _).trans ht
      have hpeek : peek (t :: ts) = t.kind := rfl
      have htail (hk : t.kind ≠ .stop) : Ended ts := he.tail hk
      rw [Parser.primary, hpeek]
      cases hk : t.kind with
      | number value =>
          have hstop : t.kind ≠ .stop := by simp [hk]
          exact comes_advance he hstop (comes_pure (htail hstop) _)
      | identifier name =>
          have hstop : t.kind ≠ .stop := by simp [hk]
          refine comes_advance he hstop ?_
          rw [next_bind]
          refine comes_ite (fun hp => ?_) fun _ => ?_
          · have hopen : peek ts ≠ .stop := by simp [show peek ts = .openParen from hp]
            have hrest : Ended ts.tail := (htail hstop).tail hopen
            have hlt' : ts.tail.length < turns := (length_tail_lt (htail hstop)).trans hlt
            refine comes_ite (fun _ => comes_throw _) fun _ => ?_
            rw [get_bind]
            refine comes_advance (htail hstop) hopen ?_
            refine (follows_items hd (by decide) hsum hs _ hm hrest
              hlt').bind fun found m' _ hfound => ?_
            exact comes_grow hfound.ended _ _
          · exact comes_ite (fun _ => comes_pure (htail hstop) _) fun _ => comes_throw _
      | openParen =>
          have hstop : t.kind ≠ .stop := by simp [hk]
          refine comes_advance he hstop ?_
          refine (hsum _ hm (htail hstop) hlt).bind fun inner m' _ hinner => ?_
          refine comes_closing hinner.ended (by decide) fun m'' hclosed => ?_
          exact comes_pure hclosed.ended inner
      | openBracket =>
          have hstop : t.kind ≠ .stop := by simp [hk]
          refine comes_advance he hstop ?_
          refine (follows_items hd (by decide) hsum hs _ hm (htail hstop)
            hlt).bind fun found m' _ hfound => ?_
          exact comes_grow hfound.ended _ _
      | _ => exact comes_throw _

end Sum

theorem comes_factorials {left : Nat} {node : Subtree} {m : Machine} (he : Ended m.rest)
    (hleft : m.rest.length < left) :
    Comes m (factorials left node m) (Parser.factorials node m.rest) := by
  induction left generalizing node m with
  | zero => exact absurd hleft (Nat.not_lt_zero _)
  | succ left ih =>
      obtain ⟨ts, d, calls⟩ := m
      dsimp only at he hleft ⊢
      cases ts with
      | nil => exact absurd he (not_ended_of_length_le_zero le_rfl)
      | cons t ts =>
          rw [factorials, Parser.factorials, next_bind]
          refine comes_ite (fun hp => ?_) fun _ => comes_pure he node
          have hstop : t.kind ≠ .stop := by simp [show t.kind = .bang from hp]
          refine comes_advance he hstop ?_
          refine (comes_grow (he.tail hstop) _ _).bind fun node' m' hmade hnode => ?_
          obtain ⟨-, -, hrest⟩ := Grammar.raise_eq_ok.1 hmade
          have hlt : m'.rest.length < left := by
            rw [hrest]
            exact Nat.lt_of_succ_lt_succ hleft
          have hagain : Comes m' (factorials left node' m') (Parser.factorials node' m'.rest) :=
            ih hnode.ended hlt
          rw [hrest] at hagain
          exact hagain

/-- A primary with its factorial signs. -/
def factorialOf (sum : Production Subtree) : Production Subtree := fun ts => do
  let (atom, rest) ← Parser.primary sum ts
  Parser.factorials atom rest

theorem factorialOf_sound {sum : Production Subtree}
    (hs : Grammar.Sound limit .sum (depth + 1) sum) :
    Grammar.Sound limit .factorial depth (factorialOf sum) := by
  intro ts node rest h
  obtain ⟨⟨atom, ts'⟩, ha, h⟩ := bind_eq_ok.1 h
  exact Grammar.factorials_sound
    ((Grammar.primary_sound hs _ _ _ ha).imp fun _ => .ofPrimary) h

theorem follows_factorial {sum : Run Subtree} {sum' : Production Subtree}
    (hd : depth + 1 ≤ maxNesting) (hsum : Follows turns (depth + 1) sum sum')
    (hs : Grammar.Sound limit .sum (depth + 1) sum') :
    Follows turns (depth + 1) (factorial turns sum) (factorialOf sum') := by
  refine follows_called hd (factorialOf_sound hs) fun m hm he ht => ?_
  refine (follows_primary hd hsum hs m hm he ht).bind fun atom m' _ hatom => ?_
  obtain ⟨-, he', ht'⟩ := hatom.ready hm ht
  exact comes_factorials he' ht'

theorem follows_power {unary : Run Subtree} {unary' : Production Subtree}
    (hd : depth + 1 ≤ maxNesting) (hu : Follows turns (depth + 1) unary unary')
    (hs : Grammar.Sound limit .unary (depth + 1) unary') :
    Follows turns (depth + 1) (power turns unary) (Parser.power unary') := by
  refine follows_called hd (Grammar.power_sound hs) fun m hm he ht => ?_
  have hpower : Parser.power unary' m.rest = (do
      let (base, rest) ← factorialOf (sums unary') m.rest
      if peek rest = .caret then
        let (exponent, rest) ← unary' rest.tail
        raise (.binary .pow base.expr exponent.expr) (max base.height exponent.height) rest
      else .ok (base, rest)) := by
    rw [factorialOf, bind_assoc]
    rfl
  rw [hpower]
  refine (follows_factorial hd (follows_sum hd hu hs) (Grammar.sums_sound hs) m hm he
    ht).bind fun base m' _ hbase => ?_
  obtain ⟨hd', he', ht'⟩ := hbase.ready hm ht
  rw [next_bind]
  refine comes_ite (fun hp => ?_) fun _ => comes_pure he' base
  have hstop : peek m'.rest ≠ .stop := by simp [show peek m'.rest = .caret from hp]
  refine comes_advance he' hstop ?_
  refine (hu { m' with rest := m'.rest.tail } hd' (he'.tail hstop)
    ((length_tail_lt he').trans ht')).bind fun exponent m'' _ hexponent => ?_
  exact comes_grow hexponent.ended _ _

theorem follows_unary {nesting frames : Nat} (hd : depth + nesting = maxNesting)
    (hf : nesting < frames) :
    Follows turns depth (unary turns frames) (Parser.unary nesting) := by
  induction frames generalizing depth nesting with
  | zero => exact absurd hf (Nat.not_lt_zero _)
  | succ frames ih =>
      refine follows_called (by omega) (Grammar.unary_sound hd) fun m hm he ht => ?_
      rw [get_bind]
      cases nesting with
      | zero =>
          rw [if_pos (by omega)]
          exact comes_throw _
      | succ nesting =>
          have hd' : depth + 1 + nesting = maxNesting := by omega
          have hu : Follows turns (depth + 1) (unary turns frames) (Parser.unary nesting) :=
            ih hd' (by omega)
          have hs : Grammar.Sound 255 .unary (depth + 1) (Parser.unary nesting) :=
            Grammar.unary_sound hd'
          rw [if_neg (by omega)]
          refine comes_deeper ?_
          rw [next_bind, Parser.unary]
          refine comes_ite (fun hp => ?_) fun _ => ?_
          · have hstop : peek m.rest ≠ .stop := by simp [show peek m.rest = .minus from hp]
            refine comes_advance he hstop ?_
            refine (hu _ (congrArg (· + 1) hm) (he.tail hstop)
              ((length_tail_lt he).trans ht)).bind fun operand m' _ hoperand => ?_
            exact comes_grow hoperand.ended _ _
          · exact follows_power (by omega) hu hs _ (congrArg (· + 1) hm) he ht

end Productions

section Texts

variable {turns frames : Nat}

theorem Comes.exists_run {m : Machine} {run : Option (Except Failure α × Machine)}
    {made : Except Failure (α × List Token)} (h : Comes m run made) :
    ∃ m', run = some (made.map (·.1), m') ∧ Steady m m' := by
  cases h with
  | ok x m' hrun hmade hpassed => exact ⟨m', by rw [hrun, hmade]; rfl, hpassed.toSteady⟩
  | error f m' hrun hmade hsteady => exact ⟨m', by rw [hrun, hmade]; rfl, hsteady⟩

/-- A whole expression, with what is left behind it. -/
def wholeOf (ts : List Token) : Except Failure (Subtree × List Token) :=
  if peek ts = .stop then .error (fault ts .emptyExpression)
  else do
    let (node, rest) ← sums (Parser.unary maxNesting) ts
    if peek rest = .stop then .ok (node, rest) else .error (Parser.unexpected rest)

theorem map_wholeOf (ts : List Token) : (wholeOf ts).map (·.1) = Parser.expression ts := by
  unfold wholeOf Parser.expression
  split
  · rfl
  · cases sums (Parser.unary maxNesting) ts with
    | error f => rfl
    | ok read =>
        rw [ok_bind, ok_bind]
        dsimp only
        split <;> rfl

/-- With turns for all tokens, and nested deeper than the counter ever gets, a whole expression
comes to what is read. -/
theorem comes_expression {m : Machine} (hd : m.depth = 0) (he : Ended m.rest)
    (ht : m.rest.length < turns) (hf : maxNesting < frames) :
    Comes m (expression turns frames m) (wholeOf m.rest) := by
  have hnesting : 0 + maxNesting = maxNesting := Nat.zero_add _
  rw [expression, wholeOf, get_bind]
  refine comes_ite (fun _ => comes_throw _) fun _ => ?_
  refine (follows_sum (Nat.zero_le _) (follows_unary hnesting hf) (Grammar.unary_sound hnesting) m
    hd he ht).bind fun node m' _ hnode => ?_
  rw [next_bind]
  exact comes_ite (fun _ => comes_pure hnode.ended node) fun _ => comes_throw _

/-- The outermost call. It was entered with all tokens, no construct around them, and it found the
tree if one was read. -/
structure Call.Outermost (call : Call) (tokens : List Token) (outcome : Except Failure Expr) :
    Prop where
  entered : call.entered = tokens
  depth : call.depth = 0
  found : ∀ e, outcome = .ok e → ∃ height, call.outcome = .ok ([e], height)

/-- Once there is a token to read, the outermost call is noted, and it is the last one. -/
theorem outermost_of_expression {ts : List Token} {m : Machine} {outcome : Except Failure Subtree}
    (hts : peek ts ≠ .stop) (h : expression turns frames ⟨ts, 0, []⟩ = some (outcome, m)) :
    ∃ call, m.calls.head? = some call ∧ call.Outermost ts (outcome.map Subtree.expr) := by
  rw [expression, get_bind, if_neg hts] at h
  obtain ⟨node, m', hsum, hrest⟩ | ⟨failure, hsum, rfl⟩ := bind_cases h
  · rw [next_bind] at hrest
    have hnoted := head?_calls_called hsum
    split at hrest
    · obtain ⟨rfl, rfl⟩ := Prod.mk.inj (Option.some.inj hrest)
      refine ⟨_, hnoted, rfl, rfl, fun e he => ⟨node.height, ?_⟩⟩
      rw [← Except.ok.inj he]
      rfl
    · obtain ⟨rfl, rfl⟩ := Prod.mk.inj (Option.some.inj hrest)
      exact ⟨_, hnoted, rfl, rfl, nofun⟩
  · exact ⟨_, head?_calls_called hsum, rfl, rfl, nofun⟩

/-- A text comes to what it is read as, and all calls on the way are within the bounds. The
outermost one is among them as soon as there is a token to read. -/
theorem parseAt_eq_some (position : Nat) (cs : List Char) (ht : cs.length + 1 < turns)
    (hf : maxNesting < frames) :
    ∃ calls, parseAt turns frames position cs = some (Expr.parseAt position cs, calls) ∧
      (∀ call ∈ calls, call.Bounded) ∧
      ∀ tokens, Token.ofChars position cs = .ok tokens → peek tokens ≠ .stop →
        ∃ call, calls.head? = some call ∧
          call.Outermost tokens ((Expr.parseAt position cs).map Parsed.expr) := by
  unfold parseAt Expr.parseAt
  cases htokens : Token.ofChars position cs with
  | error f => exact ⟨[], rfl, List.forall_mem_nil _, nofun⟩
  | ok tokens =>
      have hlength := Token.length_le_of_ofChars htokens
      obtain ⟨m, hrun, hsteady⟩ := (comes_expression (m := ⟨tokens, 0, []⟩) rfl
        (ended_of_ofChars htokens) (Nat.lt_of_le_of_lt hlength ht) hf).exists_run
      obtain ⟨calls, hcalls, hbounded⟩ := hsteady.calls
      rw [map_wholeOf] at hrun
      refine ⟨m.calls, ?_, ?_, fun tokens' htokens' hread => ?_⟩
      · dsimp only
        rw [hrun, ok_bind]
        cases Parser.expression tokens <;> rfl
      · rw [hcalls, List.append_nil]
        exact hbounded
      · obtain rfl := Except.ok.inj htokens'
        obtain ⟨call, hnoted, houtermost⟩ := outermost_of_expression hread hrun
        refine ⟨call, hnoted, ?_⟩
        rw [ok_bind]
        cases hexpression : Parser.expression tokens <;> rwa [hexpression] at houtermost

end Texts

end Reckon.Descent
