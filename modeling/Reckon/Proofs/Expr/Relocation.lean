import Reckon.Proofs.Expr.Recognition
import Reckon.Proofs.Token.Positions

/-!
Reading does not look at positions: tokens that stand elsewhere are read as the same
tree, and a failure is the same at the place that its own has gone to. Hence a failure
stands at one of the tokens, since otherwise it could be moved apart from them.

No production takes the end of the text, so there is a next token whenever one is
reported.
-/

namespace Reckon.Parser

variable {α β : Type} {φ : Nat → Nat}

/-- The end of the text is still ahead. -/
def Ended (ts : List Token) : Prop := ∃ t ∈ ts, t.kind = .stop

/-- Two computations give related results, or fail alike at places that `φ` takes to each
other. -/
inductive Agree (φ : Nat → Nat) (R : α → α → Prop) : Except Failure α → Except Failure α → Prop
  | ok {a a' : α} : R a a' → Agree φ R (.ok a) (.ok a')
  | error (position : Nat) (fault : ParseFault) :
      Agree φ R (.error (.of (.parse position fault))) (.error (.of (.parse (φ position) fault)))

/-- The same tokens at other places, with the end among them. -/
def Follow (φ : Nat → Nat) (ts ts' : List Token) : Prop :=
  Ended ts ∧ ts' = ts.map (Token.relocate φ)

/-- The same is read, and the same tokens are left at other places. -/
def SameRead (φ : Nat → Nat) (x x' : α × List Token) : Prop := x'.1 = x.1 ∧ Follow φ x.2 x'.2

/-- The production reads the same wherever the tokens stand. -/
def Relocates (φ : Nat → Nat) (p : Production α) : Prop :=
  ∀ ts, Ended ts → Agree φ (SameRead φ) (p ts) (p (ts.map (Token.relocate φ)))

theorem Agree.bind {R : α → α → Prop} {S : β → β → Prop} {x x' : Except Failure α}
    {f f' : α → Except Failure β} (h : Agree φ R x x')
    (hf : ∀ a a', R a a' → Agree φ S (f a) (f' a')) : Agree φ S (x >>= f) (x' >>= f') := by
  cases h with
  | ok hr => exact hf _ _ hr
  | error position fault => exact .error position fault

theorem Agree.of_error {R : α → α → Prop} {f : Failure} {x' : Except Failure α}
    (h : Agree φ R (.error f) x') :
    ∃ position fault, f = .of (.parse position fault) ∧
      x' = .error (.of (.parse (φ position) fault)) := by
  cases h with
  | error position fault => exact ⟨position, fault, rfl, rfl⟩

theorem Agree.eq_mapError {x x' : Except Failure α} (h : Agree φ (fun a a' => a' = a) x x') :
    x' = x.mapError (Failure.relocate φ) := by
  cases h with
  | ok hr => rw [hr]; rfl
  | error position fault => rfl

/-- What goes on with what a production has read and left. -/
theorem Agree.andThen {S : β → β → Prop} {x x' : Except Failure (α × List Token)}
    {f f' : α × List Token → Except Failure β} (h : Agree φ (SameRead φ) x x')
    (hf : ∀ a rest, Ended rest →
      Agree φ S (f (a, rest)) (f' (a, rest.map (Token.relocate φ)))) :
    Agree φ S (x >>= f) (x' >>= f') := by
  refine h.bind fun ⟨a, rest⟩ ⟨a', rest'⟩ hr => ?_
  obtain ⟨ha, hrest, hmap⟩ := hr
  dsimp only at ha hrest hmap
  subst ha hmap
  exact hf _ _ hrest

section Tokens

variable {ts : List Token}

@[simp] theorem peek_relocate (ts : List Token) :
    peek (ts.map (Token.relocate φ)) = peek ts := by
  cases ts <;> rfl

theorem position_relocate (h : Ended ts) :
    position (ts.map (Token.relocate φ)) = φ (position ts) := by
  obtain ⟨t, hm, -⟩ := h
  cases ts with
  | nil => cases hm
  | cons => rfl

theorem Ended.tail (h : Ended ts) (hp : peek ts ≠ .stop) : Ended ts.tail := by
  obtain ⟨t, hm, hk⟩ := h
  cases ts with
  | nil => cases hm
  | cons t' ts =>
      obtain rfl | hm := List.mem_cons.1 hm
      · exact absurd hk hp
      · exact ⟨t, hm, hk⟩

theorem Ended.tail_of_peek (h : Ended ts) {k : Token.Kind} (hp : peek ts = k)
    (hk : k ≠ .stop) : Ended ts.tail :=
  h.tail (hp ▸ hk)

theorem sameRead (a : α) (h : Ended ts) :
    SameRead φ (a, ts) (a, ts.map (Token.relocate φ)) :=
  ⟨rfl, h, rfl⟩

theorem agree_fault {R : α → α → Prop} (h : Ended ts) (f : ParseFault) :
    Agree φ R (.error (fault ts f)) (.error (fault (ts.map (Token.relocate φ)) f)) := by
  rw [fault, fault, position_relocate h]
  exact .error _ _

theorem agree_unexpected {R : α → α → Prop} (h : Ended ts) :
    Agree φ R (.error (unexpected ts)) (.error (unexpected (ts.map (Token.relocate φ)))) := by
  rw [unexpected, unexpected, peek_relocate]
  exact agree_fault h _

theorem agree_raise (e : Expr) (below : Nat) (h : Ended ts) :
    Agree φ (SameRead φ) (raise e below ts) (raise e below (ts.map (Token.relocate φ))) := by
  unfold raise
  split
  · exact agree_fault h _
  · exact .ok (sameRead _ h)

theorem agree_close {closer : Token.Kind} (hc : closer ≠ .stop) (opener : Char) (opened : Nat)
    (h : Ended ts) :
    Agree φ (Follow φ) (close closer opener opened ts)
      (close closer opener (φ opened) (ts.map (Token.relocate φ))) := by
  unfold close
  rw [peek_relocate]
  split
  · rename_i hp
    exact .ok ⟨h.tail_of_peek hp hc, List.map_tail.symm⟩
  · split
    · exact .error _ _
    · exact agree_unexpected h

end Tokens

section Productions

variable {unary sum : Production Subtree}

theorem agree_joined {operator? : Token.Kind → Option Operator} {operand : Production Subtree}
    (hs : ∀ {k op}, operator? k = some op → k ≠ .stop) (ho : Relocates φ operand) (bound : Nat)
    (left : Subtree) : Relocates φ (joined operator? operand bound left) := by
  induction bound generalizing left with
  | zero => exact fun ts h => .ok (sameRead left h)
  | succ bound ih =>
      intro ts h
      rw [joined, joined, peek_relocate, ← List.map_tail]
      split
      · exact .ok (sameRead left h)
      · rename_i op hop
        refine (ho _ (h.tail (hs hop))).andThen fun right rest hr => ?_
        refine (agree_raise _ _ hr).andThen fun node rest hr => ?_
        exact ih node rest hr

theorem relocates_chain {operator? : Token.Kind → Option Operator}
    {operand : Production Subtree} (hs : ∀ {k op}, operator? k = some op → k ≠ .stop)
    (ho : Relocates φ operand) : Relocates φ (chain operator? operand) := by
  intro ts h
  refine (ho ts h).andThen fun first rest hr => ?_
  dsimp only
  rw [List.length_map]
  exact agree_joined hs ho _ _ rest hr

theorem relocates_sums (hu : Relocates φ unary) : Relocates φ (sums unary) :=
  relocates_chain Grammar.ne_stop_of_sumOperator
    (relocates_chain Grammar.ne_stop_of_productOperator hu)

theorem agree_entries (hs : Relocates φ sum) {closer : Token.Kind} (hc : closer ≠ .stop)
    (opener : Char) (opened bound : Nat) (found : List Expr) (height : Nat) {ts : List Token}
    (h : Ended ts) :
    Agree φ (SameRead φ) (entries sum closer opener opened bound found height ts)
      (entries sum closer opener (φ opened) bound found height (ts.map (Token.relocate φ))) := by
  induction bound generalizing found height ts with
  | zero => exact agree_unexpected h
  | succ bound ih =>
      rw [entries, entries]
      refine (hs ts h).andThen fun next rest hr => ?_
      dsimp only
      rw [peek_relocate, ← List.map_tail]
      split
      · rename_i hp
        exact ih _ _ (hr.tail_of_peek hp (by decide))
      · refine (agree_close hc opener opened hr).bind fun rest rest' hrest => ?_
        obtain ⟨hr, rfl⟩ := hrest
        exact .ok (sameRead _ hr)

theorem agree_items (hs : Relocates φ sum) {closer : Token.Kind} (hc : closer ≠ .stop)
    (opener : Char) (opened : Nat) {ts : List Token} (h : Ended ts) :
    Agree φ (SameRead φ) (items sum closer opener opened ts)
      (items sum closer opener (φ opened) (ts.map (Token.relocate φ))) := by
  unfold items
  rw [peek_relocate, ← List.map_tail, List.length_map]
  split
  · rename_i hp
    exact .ok (sameRead _ (h.tail_of_peek hp hc))
  · exact agree_entries hs hc opener opened _ _ _ h

theorem relocates_primary (hs : Relocates φ sum) : Relocates φ (primary sum) := by
  intro ts h
  cases ts with
  | nil => exact agree_unexpected h
  | cons t ts =>
      have htail (hk : t.kind ≠ .stop) : Ended ts := h.tail hk
      simp only [List.map_cons, primary, Token.relocate_kind, Token.relocate_position]
      split
      · rename_i value hk
        exact .ok (sameRead _ (htail (by simp [hk])))
      · rename_i name hk
        have hts := htail (by simp [hk])
        rw [peek_relocate]
        split
        · rename_i hp
          split
          · exact agree_fault h _
          · rw [position_relocate hts, ← List.map_tail]
            refine (agree_items hs (by decide) '(' _
              (hts.tail_of_peek hp (by decide))).andThen fun found rest hr => ?_
            exact agree_raise _ _ hr
        · split
          · exact .ok (sameRead _ hts)
          · exact agree_fault h _
      · rename_i hk
        refine (hs ts (htail (by simp [hk]))).andThen fun inner rest hr => ?_
        refine (agree_close (by decide) '(' _ hr).bind fun rest rest' hrest => ?_
        obtain ⟨hr, rfl⟩ := hrest
        exact .ok (sameRead _ hr)
      · rename_i hk
        refine (agree_items hs (by decide) '[' _
          (htail (by simp [hk]))).andThen fun found rest hr => ?_
        exact agree_raise _ _ hr
      · exact agree_unexpected h

theorem relocates_factorials (node : Subtree) : Relocates φ (factorials node) := by
  intro ts
  induction ts generalizing node with
  | nil => exact fun h => .ok (sameRead node h)
  | cons t ts ih =>
      intro h
      by_cases hk : t.kind = .bang
      · have hts : Ended ts := h.tail_of_peek hk (by decide)
        have hk' : (t.relocate φ).kind = .bang := hk
        rw [List.map_cons, factorials, factorials, if_pos hk, if_pos hk']
        refine (agree_raise _ _ hts).andThen fun node rest _ => ?_
        exact ih node hts
      · have hk' : (t.relocate φ).kind ≠ .bang := hk
        rw [List.map_cons, factorials, factorials, if_neg hk, if_neg hk']
        exact .ok (sameRead node h)

theorem relocates_power (hu : Relocates φ unary) : Relocates φ (power unary) := by
  intro ts h
  refine (relocates_primary (relocates_sums hu) ts h).andThen fun atom rest hr => ?_
  refine (relocates_factorials atom rest hr).andThen fun base rest hr => ?_
  dsimp only
  rw [peek_relocate, ← List.map_tail]
  split
  · rename_i hp
    refine (hu _ (hr.tail_of_peek hp (by decide))).andThen fun exponent rest hr => ?_
    exact agree_raise _ _ hr
  · exact .ok (sameRead base hr)

theorem relocates_unary (nesting : Nat) : Relocates φ (Parser.unary nesting) := by
  induction nesting with
  | zero => exact fun ts h => agree_fault h _
  | succ nesting ih =>
      intro ts h
      simp only [Parser.unary]
      rw [peek_relocate, ← List.map_tail]
      split
      · rename_i hp
        refine (ih _ (h.tail_of_peek hp (by decide))).andThen fun operand rest hr => ?_
        exact agree_raise _ _ hr
      · exact relocates_power ih ts h

/-- A whole expression is read alike wherever its tokens stand. -/
theorem agree_expression (φ : Nat → Nat) {ts : List Token} (h : Ended ts) :
    Agree φ (fun node node' => node' = node) (expression ts)
      (expression (ts.map (Token.relocate φ))) := by
  unfold expression
  rw [peek_relocate]
  split
  · exact agree_fault h _
  · refine (relocates_sums (relocates_unary maxNesting) ts h).andThen fun node rest hr => ?_
    dsimp only
    rw [peek_relocate]
    split
    · exact .ok rfl
    · exact agree_unexpected hr

/-- A failure stands at one of the tokens: if it stood elsewhere, its place could be moved
while all tokens stay. -/
theorem exists_token_of_expression {ts : List Token} {f : Failure} (h : Ended ts)
    (hf : expression ts = .error f) :
    ∃ t ∈ ts, ∃ fault, f = .of (.parse t.position fault) := by
  let φ (place : Nat) : Nat := if place ∈ ts.map Token.position then place else place + 1
  have hstay : ts.map (Token.relocate φ) = ts := by
    refine (List.map_congr_left fun t ht => ?_).trans (List.map_id ts)
    have hplace : φ t.position = t.position := if_pos (List.mem_map_of_mem ht)
    rw [Token.relocate, hplace, id_eq]
  have hagree := agree_expression φ h
  rw [hstay, hf] at hagree
  obtain ⟨place, fault, rfl, heq⟩ := hagree.of_error
  have hplace : place = φ place :=
    (Cause.parse.inj (congrArg Failure.cause (Except.error.inj heq))).1
  have hmem : place ∈ ts.map Token.position := by
    by_contra hnot
    rw [show φ place = place + 1 from if_neg hnot] at hplace
    omega
  obtain ⟨t, ht, rfl⟩ := List.mem_map.1 hmem
  exact ⟨t, ht, fault, rfl⟩

end Productions
end Reckon.Parser

namespace Reckon

open Reckon.Parser (Ended agree_expression exists_token_of_expression)

variable {position : Nat} {cs : List Char} {f : Failure}

theorem ended_of_ofChars {tokens : List Token} (h : Token.ofChars position cs = .ok tokens) :
    Ended tokens := by
  obtain ⟨front, rfl, -⟩ := Token.ofChars_lexical h
  exact ⟨_, List.mem_append_right front (List.mem_singleton_self _), rfl⟩

/-- A text that begins later is read as it is alone, and fails as much later. -/
theorem Expr.parseAt_shift (offset position : Nat) (cs : List Char) :
    Expr.parseAt (position + offset) cs =
      (Expr.parseAt position cs).mapError (Failure.relocate (· + offset)) := by
  rw [Expr.parseAt, Expr.parseAt, Token.ofChars_shift]
  cases h : Token.ofChars position cs with
  | error f => rfl
  | ok tokens =>
      have hread := (agree_expression (· + offset) (ended_of_ofChars h)).eq_mapError
      simp only [Except.map, mapError_ok, ok_bind, hread, List.length_map]
      cases Parser.expression tokens <;> rfl

/-- What cannot be read is reported at the end of the text or at a character that is no
blank. -/
theorem Expr.pointsInto_of_parseAt (h : Expr.parseAt 0 cs = .error f) : f.PointsInto cs := by
  obtain h | ⟨tokens, ht, h⟩ := bind_eq_error.1 h
  · exact Token.pointsInto_of_ofChars h
  · obtain h | ⟨node, -, h⟩ := bind_eq_error.1 h
    · obtain ⟨t, hm, fault, rfl⟩ := exists_token_of_expression (ended_of_ofChars ht) h
      exact ⟨_, fault, rfl, Token.occupied_of_ofChars ht t hm⟩
    · cases h

/-- Where there is the sign of an equation, a text cannot be read beyond it. -/
theorem Expr.parseAt_of_equals_mem (position : Nat) (h : '=' ∈ cs) :
    ∃ place fault, Expr.parseAt position cs = .error (.of (.parse place fault)) ∧
      place ≤ position + cs.idxOf '=' := by
  obtain ⟨place, fault, hs, hle⟩ := Token.scan_of_equals_mem h (Nat.zero_le _) position []
  exact ⟨place, fault, bind_eq_error.2 (.inl hs), hle⟩

end Reckon
