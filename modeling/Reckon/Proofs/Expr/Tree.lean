import Reckon.Expr.Basic

/-!
Induction over trees, and the traversals of lists of trees in terms of those of a
single tree.
-/

namespace Reckon.Expr

/-- Induction where calls and lists have one hypothesis for each of their items. -/
@[induction_eliminator]
theorem induction {motive : Expr → Prop} (number : ∀ value, motive (number value))
    (var : ∀ name, motive (var name))
    (binary : ∀ op left right, motive left → motive right → motive (binary op left right))
    (neg : ∀ operand, motive operand → motive (neg operand))
    (factorial : ∀ operand, motive operand → motive (factorial operand))
    (call : ∀ func args, (∀ e ∈ args, motive e) → motive (call func args))
    (list : ∀ items, (∀ e ∈ items, motive e) → motive (list items)) (e : Expr) : motive e :=
  @Expr.rec motive (fun es => ∀ e ∈ es, motive e) number var binary neg factorial call list
    (by simp) (fun e es he hes => by simpa using ⟨he, hes⟩) e

theorem preorders_eq_flatMap (es : List Expr) : preorders es = es.flatMap preorder := by
  induction es with
  | nil => rfl
  | cons e es ih => rw [preorders, ih, List.flatMap_cons]

theorem transformAll_eq_map (f : Expr → Expr) (es : List Expr) :
    transformAll f es = es.map (transform f) := by
  induction es with
  | nil => rfl
  | cons e es ih => rw [transformAll, ih, List.map_cons]

theorem heights_eq_foldr (es : List Expr) : heights es = (es.map height).foldr max 0 := by
  induction es with
  | nil => rfl
  | cons e es ih =>
      rw [heights, ih]
      rfl

theorem heights_map {f : Expr → Expr} {es : List Expr} (h : ∀ e ∈ es, (f e).height = e.height) :
    heights (es.map f) = heights es := by
  rw [heights_eq_foldr, heights_eq_foldr, List.map_map]
  exact congrArg (List.foldr max 0) (List.map_congr_left h)

end Reckon.Expr
