import Reckon.Proofs.Expr.Evaluation

/-!
Trees that are evaluated alike: to the same value bit for bit, or to the same failure, and
not only as numbers but also where a function reads them as lists. A change of the leaves
that keeps this for every leaf keeps it for the tree. Nothing is said about trees of
different shapes above the leaves.
-/

namespace Reckon.Expr

variable {b b' : Bindings} {e e' : Expr}

/-- The trees are evaluated alike wherever they stand, each under bindings of its own. -/
structure Alike (b : Bindings) (e : Expr) (b' : Bindings) (e' : Expr) : Prop where
  listed : e.isList = e'.isList
  value : e.eval b = e'.eval b'
  sequence (f : Builtin) : evalSequence b f e = evalSequence b' f e'
  matrix (f : Builtin) : evalMatrix b f e = evalMatrix b' f e'

/-- A tree that is no list is the same failure in a place for one, whatever it is. -/
theorem Alike.of_not_isList (h : e.isList = false) (h' : e'.isList = false)
    (hv : e.eval b = e'.eval b') : Alike b e b' e' where
  listed := h.trans h'.symm
  value := hv
  sequence f := by rw [evalSequence_of_not_isList f h, evalSequence_of_not_isList f h']
  matrix f := by rw [evalMatrix_of_not_isList f h, evalMatrix_of_not_isList f h']

section Items

variable {g : Expr → Expr} {es : List Expr}

theorem evalAll_congr (h : ∀ e ∈ es, Alike b e b' (g e)) :
    evalAll b es = evalAll b' (es.map g) := by
  induction es with
  | nil => rfl
  | cons e es ih =>
      obtain ⟨he, hes⟩ := List.forall_mem_cons.1 h
      rw [List.map_cons, evalAll, evalAll, he.value, ih hes]

theorem evalRows_congr (f : Builtin) (h : ∀ e ∈ es, Alike b e b' (g e)) :
    evalRows b f es = evalRows b' f (es.map g) := by
  induction es with
  | nil => rfl
  | cons e es ih =>
      obtain ⟨he, hes⟩ := List.forall_mem_cons.1 h
      rw [List.map_cons, evalRows, evalRows, he.sequence f, ih hes]

theorem Alike.list (h : ∀ e ∈ es, Alike b e b' (g e)) : Alike b (list es) b' (list (es.map g)) where
  listed := rfl
  value := by rw [eval, eval]
  sequence f := by rw [evalSequence, evalSequence, evalAll_congr h]
  matrix f := by
    have hlists : es.all isList = (es.map g).all isList := by
      rw [List.all_map, Bool.eq_iff_iff, List.all_eq_true, List.all_eq_true]
      exact forall₂_congr fun e he => by rw [(h e he).listed, Function.comp_apply]
    rw [evalMatrix, evalMatrix, hlists, evalRows_congr f h]

theorem evalArguments_congr (f : Builtin) (h : ∀ e ∈ es, Alike b e b' (g e)) :
    evalArguments b f es = evalArguments b' f (es.map g) := by
  match es with
  | [] => rfl
  | [x] =>
      have hx := h x (by simp)
      simp only [List.map, evalArguments, hx.value, hx.sequence, hx.matrix]
  | [x, y] =>
      have hx := h x (by simp)
      have hy := h y (by simp)
      simp only [List.map, evalArguments, hx.value, hx.sequence, hy.value, hy.sequence]
  | _ :: _ :: _ :: _ => simp [evalArguments]

theorem Alike.call (func : String) (h : ∀ e ∈ es, Alike b e b' (g e)) :
    Alike b (call func es) b' (call func (es.map g)) := by
  apply of_not_isList rfl rfl
  rw [eval, eval, List.length_map]
  simp only [evalArguments_congr _ h]

end Items

/-- Changes the leaves of a tree and nothing above them. -/
structure Leafwise (g : Expr → Expr) : Prop where
  binary op l r : g (binary op l r) = binary op l r := by intros; rfl
  neg e : g (neg e) = neg e := by intros; rfl
  factorial e : g (factorial e) = factorial e := by intros; rfl
  call func args : g (call func args) = call func args := by intros; rfl
  list items : g (list items) = list items := by intros; rfl

section Leaves

variable {g : Expr → Expr}

theorem transform_call (hg : Leafwise g) (func : String) (args : List Expr) :
    (call func args).transform g = call func (args.map (transform g)) := by
  rw [transform, hg.call, transformAll_eq_map]

theorem transform_list (hg : Leafwise g) (items : List Expr) :
    (list items).transform g = list (items.map (transform g)) := by
  rw [transform, hg.list, transformAll_eq_map]

theorem Alike.transform (hg : Leafwise g)
    (hnumber : ∀ v, Alike b (number v) b' (g (number v)))
    (hvar : ∀ name, Alike b (var name) b' (g (var name))) (e : Expr) :
    Alike b e b' (e.transform g) := by
  induction e with
  | number v => exact hnumber v
  | var name => exact hvar name
  | binary op l r ihl ihr =>
      rw [Expr.transform, hg.binary]
      apply of_not_isList rfl rfl
      rw [eval, eval, ihl.value, ihr.value]
  | neg e ih =>
      rw [Expr.transform, hg.neg]
      apply of_not_isList rfl rfl
      rw [eval, eval, ih.value]
  | factorial e ih =>
      rw [Expr.transform, hg.factorial]
      apply of_not_isList rfl rfl
      rw [eval, eval, ih.value]
  | call func args ih =>
      rw [transform_call hg]
      exact .call func ih
  | list items ih =>
      rw [transform_list hg]
      exact .list ih

end Leaves

end Reckon.Expr
