import Reckon.Proofs.Expr.Alike
import Reckon.Proofs.Expr.Variables

/-!
Replacing bound variables by their values before a tree is evaluated comes to the same as
binding them while it is evaluated, as long as no constant is bound. The tree may have any
shape, and it may fail.
-/

namespace Reckon

/-- Bindings that come before others. -/
def Bindings.before (b c : Bindings) : Bindings :=
  b.entries.foldr (fun (name, value) below => below.set name value) c

theorem Bindings.get?_before (b c : Bindings) (name : String) :
    (b.before c).get? name = (b.get? name).or (c.get? name) := by
  obtain ⟨entries⟩ := b
  induction entries with
  | nil => rfl
  | cons entry entries ih =>
      rw [before, List.foldr_cons, get?_set]
      by_cases h : entry.1 = name
      · simp [h, get?]
      · have hget : get? ⟨entry :: entries⟩ name = get? ⟨entries⟩ name := by simp [get?, h]
        rw [if_neg h, hget]
        exact ih

namespace Expr

variable {b : Bindings}

theorem alike_number (b c : Bindings) (v : Binary64) : Alike b (number v) c (number v) := by
  apply Alike.of_not_isList rfl rfl
  rw [eval, eval]

theorem alike_bind_var (c : Bindings) {name : String}
    (h : constant? name = none ∨ b.get? name = none) :
    Alike (b.before c) (var name) c ((var name).bind b) := by
  rw [bind_var]
  cases hb : b.get? name with
  | none =>
      apply Alike.of_not_isList rfl rfl
      rw [Option.map_none, Option.getD_none, eval, eval, lookup, lookup, Bindings.get?_before, hb,
        Option.none_or]
  | some v =>
      have hc : constant? name = none := by simpa [hb] using h
      apply Alike.of_not_isList rfl rfl
      rw [Option.map_some, Option.getD_some, eval, eval, lookup, hc, Bindings.get?_before, hb,
        Option.some_or]

/-- A tree with its bound variables replaced is evaluated under other bindings as the tree
itself is under both, those that were replaced first. -/
theorem eval_bind (hpi : b.get? "pi" = none) (he : b.get? "e" = none) (c : Bindings) (t : Expr) :
    (t.bind b).eval c = t.eval (b.before c) := by
  have hleaf (name : String) : constant? name = none ∨ b.get? name = none := by
    by_cases hname : name = "pi" ∨ name = "e"
    · obtain rfl | rfl := hname
      · exact .inr hpi
      · exact .inr he
    · rw [not_or] at hname
      exact .inl (constant?_eq_none.2 hname)
  have halike : Alike (b.before c) t c (t.bind b) := by
    apply Alike.transform {}
    · intro v
      exact alike_number _ _ v
    · intro name
      exact alike_bind_var c (hleaf name)
  exact halike.value.symm

theorem eval_bind_answer :
    let b := (Bindings.empty.set "Ans" 4).set "r" 1
    let c := (Bindings.empty.set "r" 9).set "k" 2
    let t := binary .mul (factorial (binary .sub (var "Ans") (var "r"))) (var "k")
    b.get? "pi" = none ∧ b.get? "e" = none ∧ (t.bind b).eval c = t.eval (b.before c) ∧
      ((t.bind b).eval c).toOption = some 12 :=
  ⟨rfl, rfl, eval_bind rfl rfl _ _, by decide +kernel⟩

end Expr
end Reckon
