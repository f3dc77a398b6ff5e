import Reckon.Calculator
import Reckon.Proofs.Expr.Descent
import Reckon.Proofs.Expr.Variables
import Reckon.Proofs.Statement

/-!
How large a tree can be that was read: it has no more nodes than the text has tokens, and no more
levels than are allowed, however the text is nested. Only a tree that is built from others
afterwards, the difference of the sides of an equation, has one level more.
-/

namespace Reckon

namespace Grammar

variable {limit depth : Nat} {form : Form} {ks : List Token.Kind} {e : Expr}

/-- Trees with no more nodes than tokens each have no more together, commas aside. -/
theorem nodeCounts_le {entries : List (List Token.Kind × Expr)}
    (h : ∀ entry ∈ entries, entry.2.nodeCount ≤ entry.1.length) :
    Expr.nodeCounts (entries.map (·.2)) ≤ (separated (entries.map (·.1))).length := by
  induction entries with
  | nil => exact Nat.zero_le _
  | cons entry rest ih =>
      obtain ⟨hentry, hrest⟩ := List.forall_mem_cons.1 h
      have hle := ih hrest
      cases rest with
      | nil => simpa [Expr.nodeCounts] using hentry
      | cons next rest =>
          simp only [List.map_cons, Expr.nodeCounts, separated_cons_cons, List.length_append,
            List.length_cons] at hle ⊢
          omega

/-- Every node has a token of its own. -/
theorem Derives.nodeCount_le (h : Derives limit form depth ks e) : e.nodeCount ≤ ks.length := by
  induction h with
  | ofProduct _ ih | ofUnary _ ih | ofPower _ _ ih | ofFactorial _ ih | ofPrimary _ ih => exact ih
  | add _ _ ihl ihr | sub _ _ ihl ihr | mul _ _ ihl ihr | div _ _ ihl ihr | pow _ _ ihl ihr =>
      simp only [Expr.nodeCount, List.length_append, List.length_cons]
      omega
  | neg _ _ ih =>
      simp only [Expr.nodeCount, List.length_cons]
      omega
  | factorial _ ih =>
      simp only [Expr.nodeCount, List.length_append, List.length_singleton]
      omega
  | number | var => exact le_rfl
  | group _ ih =>
      simp only [List.length_cons, List.length_append]
      omega
  | call _ _ ih | list _ ih =>
      have hcounts := nodeCounts_le ih
      simp only [Expr.nodeCount, List.length_cons, List.length_append]
      omega

end Grammar

namespace Expr

/-- The parts of a tree that was read are within their bounds. -/
theorem bounds_of_parseAt {position : Nat} {cs : List Char} {parsed : Parsed}
    (h : parseAt position cs = .ok parsed) :
    parsed.expr.height ≤ Parser.maxHeight ∧ parsed.expr.nodeCount ≤ parsed.tokenCount ∧
      parsed.tokenCount ≤ cs.length := by
  obtain ⟨tokens, htokens, hrest⟩ := bind_eq_ok.1 h
  obtain ⟨node, -, hparsed⟩ := bind_eq_ok.1 hrest
  obtain ⟨d, hheight⟩ := (Grammar.parseAt_eq_ok_iff htokens).1 ⟨parsed, h, rfl⟩
  have hcount : parsed.tokenCount = (tokens.dropLast.map Token.kind).length := by
    rw [List.length_map, List.length_dropLast, ← Except.ok.inj hparsed]
  rw [hcount]
  refine ⟨hheight, d.nodeCount_le, ?_⟩
  rw [List.length_map, List.length_dropLast]
  exact Nat.sub_le_of_le_add (Token.length_le_of_ofChars htokens)

theorem height_bind (b : Bindings) (e : Expr) : (e.bind b).height = e.height := by
  induction e with
  | number value => rfl
  | var name =>
      rw [bind_var]
      cases b.get? name <;> rfl
  | binary op l r ihl ihr => rw [bind_binary, height, height, ihl, ihr]
  | neg e ih => rw [bind_neg, height, height, ih]
  | factorial e ih => rw [bind_factorial, height, height, ih]
  | call func args ih => rw [bind_call, height, height, heights_map ih]
  | list items ih => rw [bind_list, height, height, heights_map ih]

end Expr

namespace Statement

variable {cs : List Char} {lhs rhs : Parsed}

/-- The sides of an equation share its tokens, and their difference is one level higher at most. -/
theorem bounds_of_ofChars (h : ofChars cs = .ok (.equation lhs rhs)) :
    lhs.tokenCount + rhs.tokenCount < cs.length ∧
      (Expr.binary .sub lhs.expr rhs.expr).height ≤ Parser.maxHeight + 1 := by
  have hparse : parse (String.ofList cs) = .ok (.equation lhs rhs) := by
    rw [parse, String.toList_ofList, h]
  obtain ⟨left, right, hsplit, -, hleft, hright⟩ := sides_of_parse hparse
  rw [String.toList_ofList] at hsplit
  obtain ⟨hheight, -, hcount⟩ := Expr.bounds_of_parseAt hleft
  obtain ⟨hheight', -, hcount'⟩ := Expr.bounds_of_parseAt hright
  constructor
  · rw [hsplit, List.length_append, List.length_cons]
    omega
  · rw [Expr.height]
    exact Nat.succ_le_succ (max_le hheight hheight')

end Statement

namespace Plan

variable {b : Bindings} {request : Request}

theorem height_of_request {op : Request.Operation} {e : Expr}
    (h : Plan.request b op e = .ask request) : request.expression.height = e.height := by
  unfold Plan.request at h
  split at h
  · cases h
  · obtain rfl := Plan.ask.inj h
    exact Expr.height_bind b e

/-- Values that are filled in do not change the height of a difference. -/
theorem height_of_ofEquation {lhs rhs : Expr} (h : ofEquation b lhs rhs = .ask request) :
    request.expression.height = (Expr.binary .sub lhs rhs).height := by
  unfold ofEquation at h
  dsimp only at h
  split at h <;> exact height_of_request h

end Plan

/-- Reading is bounded by the text. The descent ends, if its loops may take two turns more than
there are characters and calls may be nested one deeper than the counter ever gets, and comes to
what is read; each call on the way keeps the depth, and takes a token and knows the height of its
tree if it finds one. Calls are noted when they return, and once there is a token to read, the last
one noted is the outermost. What is read has no more levels than are allowed and no more nodes than
tokens, and the difference that is asked about an equation has one level more at most. -/
theorem reading_bounded (position : Nat) (cs : List Char) :
    (∀ turns frames, cs.length + 1 < turns → Parser.maxNesting < frames →
      ∃ calls, Descent.parseAt turns frames position cs = some (Expr.parseAt position cs, calls) ∧
        (∀ call ∈ calls, call.Bounded) ∧
        ∀ tokens, Token.ofChars position cs = .ok tokens → Parser.peek tokens ≠ .stop →
          ∃ call, calls.head? = some call ∧
            call.Outermost tokens ((Expr.parseAt position cs).map Parsed.expr)) ∧
    (∀ parsed, Expr.parseAt position cs = .ok parsed →
      parsed.expr.height ≤ Parser.maxHeight ∧ parsed.expr.nodeCount ≤ parsed.tokenCount ∧
        parsed.tokenCount ≤ cs.length) ∧
    ∀ lhs rhs, Statement.ofChars cs = .ok (.equation lhs rhs) →
      lhs.tokenCount + rhs.tokenCount < cs.length ∧
      (Expr.binary .sub lhs.expr rhs.expr).height ≤ Parser.maxHeight + 1 ∧
      ∀ b request, Plan.ofEquation b lhs.expr rhs.expr = .ask request →
        request.expression.height ≤ Parser.maxHeight + 1 := by
  refine ⟨fun turns frames ht hf => Descent.parseAt_eq_some position cs ht hf,
    fun parsed h => Expr.bounds_of_parseAt h, fun lhs rhs h => ?_⟩
  obtain ⟨hcount, hheight⟩ := Statement.bounds_of_ofChars h
  refine ⟨hcount, hheight, fun b request hask => ?_⟩
  rwa [Plan.height_of_ofEquation hask]

theorem reading_bounded_negated_side :
    (Expr.binary .sub (.var "x") (.neg (.var "y"))).height ≤ Parser.maxHeight + 1 ∧
      (Expr.neg (.var "y")).nodeCount ≤ 4 ∧
      ∃ calls, Descent.parseAt 6 257 2 "-(y)".toList =
        some (.ok ⟨.neg (.var "y"), 4⟩, calls) ∧
        ∃ call ∈ calls, call.Bounded ∧ call.depth = 0 ∧
          call.outcome = .ok ([.neg (.var "y")], 2) := by
  have hstatement : Statement.ofChars "x=-(y)".toList =
      .ok (.equation ⟨.var "x", 1⟩ ⟨.neg (.var "y"), 4⟩) := by rfl
  have hside : Expr.parseAt 2 "-(y)".toList = .ok ⟨.neg (.var "y"), 4⟩ := by rfl
  have hequation := (reading_bounded 0 "x=-(y)".toList).2.2 _ _ hstatement
  obtain ⟨hdescent, htree, -⟩ := reading_bounded 2 "-(y)".toList
  refine ⟨hequation.2.1, (htree _ hside).2.1, ?_⟩
  obtain ⟨calls, hrun, hbounded, houtermost⟩ := hdescent 6 257 (by decide) (by decide)
  obtain ⟨call, hnoted, -, hdepth, hfound⟩ := houtermost _ rfl nofun
  have hcall := List.mem_of_mem_head? hnoted
  obtain ⟨height, houtcome⟩ := hfound (.neg (.var "y")) (by rw [hside]; rfl)
  have hheight : height = 2 := ((hbounded call hcall).found _ _ houtcome).2
  refine ⟨calls, hside ▸ hrun, call, hcall, hbounded call hcall, hdepth, ?_⟩
  rw [houtcome, hheight]

end Reckon
