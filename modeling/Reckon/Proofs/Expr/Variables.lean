import Reckon.Calculator
import Reckon.Proofs.Expr.Tree

/-!
The variables of a tree, constructor by constructor, and what replacing bound
variables by their values leaves of them. The order and the number of occurrences
are kept.
-/

namespace Reckon.Expr

@[simp] theorem variableNames_number (v : Binary64) : (number v).variableNames = [] := by
  simp [variableNames, preorder]

@[simp] theorem variableNames_var (name : String) : (var name).variableNames = [name] := by
  simp [variableNames, preorder]

@[simp] theorem variableNames_binary (op : Operator) (l r : Expr) :
    (binary op l r).variableNames = l.variableNames ++ r.variableNames := by
  simp [variableNames, preorder]

@[simp] theorem variableNames_neg (e : Expr) : (neg e).variableNames = e.variableNames := by
  simp [variableNames, preorder]

@[simp] theorem variableNames_factorial (e : Expr) :
    (factorial e).variableNames = e.variableNames := by
  simp [variableNames, preorder]

@[simp] theorem variableNames_call (func : String) (args : List Expr) :
    (call func args).variableNames = args.flatMap variableNames := by
  simp only [variableNames, preorder, preorders_eq_flatMap, List.filterMap_cons,
    List.filterMap_flatMap]
  rfl

@[simp] theorem variableNames_list (items : List Expr) :
    (list items).variableNames = items.flatMap variableNames := by
  simp only [variableNames, preorder, preorders_eq_flatMap, List.filterMap_cons,
    List.filterMap_flatMap]
  rfl

section Bind

variable (b : Bindings)

@[simp] theorem bind_number (v : Binary64) : (number v).bind b = number v := rfl

@[simp] theorem bind_var (name : String) :
    (var name).bind b = ((b.get? name).map number).getD (var name) := rfl

@[simp] theorem bind_binary (op : Operator) (l r : Expr) :
    (binary op l r).bind b = binary op (l.bind b) (r.bind b) := rfl

@[simp] theorem bind_neg (e : Expr) : (neg e).bind b = neg (e.bind b) := rfl

@[simp] theorem bind_factorial (e : Expr) : (factorial e).bind b = factorial (e.bind b) := rfl

@[simp] theorem bind_call (func : String) (args : List Expr) :
    (call func args).bind b = call func (args.map (bind b)) := by
  simp only [bind, substitute, transform, transformAll_eq_map]
  rfl

@[simp] theorem bind_list (items : List Expr) :
    (list items).bind b = list (items.map (bind b)) := by
  simp only [bind, substitute, transform, transformAll_eq_map]
  rfl

theorem flatMap_variableNames_bind {es : List Expr}
    (h : ∀ e ∈ es, (e.bind b).variableNames =
      e.variableNames.filter fun name => (b.get? name).isNone) :
    (es.map (bind b)).flatMap variableNames =
      (es.flatMap variableNames).filter fun name => (b.get? name).isNone := by
  induction es with
  | nil => rfl
  | cons e es ih =>
      simp [h e (by simp), ih fun e he => h e (List.mem_cons_of_mem _ he)]

/-- Binding removes the variables that have a value, and no others. -/
theorem variableNames_bind (e : Expr) :
    (e.bind b).variableNames = e.variableNames.filter fun name => (b.get? name).isNone := by
  induction e with
  | number v => rfl
  | var name => cases h : b.get? name <;> simp [h]
  | binary op l r ihl ihr => simp [ihl, ihr]
  | neg e ih | factorial e ih => simpa using ih
  | call func args ih | list args ih => simpa using flatMap_variableNames_bind b ih

end Bind

theorem mentions_bind {b : Bindings} {name : String} {e : Expr} :
    (e.bind b).mentions name ↔ e.mentions name ∧ b.get? name = none := by
  simp [mentions, variableNames_bind]

end Reckon.Expr
