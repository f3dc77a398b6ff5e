import Reckon.Expr.Eval
import Reckon.Proofs.Expr.Tree

/-!
Trees whose parts stand where they can be evaluated: once by recursion on the place, and
once as a condition on each node alone. That both say the same is shown here; what
evaluation makes of such trees is not.
-/

namespace Reckon

/-- What a place of a tree holds: a number, a list of numbers, or a list of rows. -/
inductive Shape where
  | number
  | sequence
  | matrix
deriving DecidableEq

/-- What each argument of a function is. -/
def Builtin.argumentShape : Builtin → Shape
  | det => .matrix
  | dot | norm | mean | median | stddev | corr => .sequence
  | _ => .number

namespace Builtin

variable {f : Builtin}

theorem isArray_iff : f.isArray ↔ f.argumentShape ≠ .number := by
  cases f <;> decide

theorem argumentShape_eq_matrix : f.argumentShape = .matrix ↔ f = .det := by
  cases f <;> decide

/-- A numeric function takes one argument or two, and these are the functions of two. -/
theorem accepts_cases {count : Nat} (ho : ¬ f.isHigherOrder) (ha : f.accepts count) :
    count = 1 ∧ f ≠ .dot ∧ f ≠ .corr ∨ count = 2 ∧ (f = .log ∨ f = .dot ∨ f = .corr) := by
  have hcount : f.arity.1 ≤ count ∧ count ≤ f.arity.2 := by simpa [accepts] using ha
  cases f with
  | integrate | diff | sum | limit => exact absurd rfl ho
  | _ => simp only [arity] at hcount; simp; omega

end Builtin

namespace Expr

/-- The tree can stand in a place of the given shape. -/
inductive HasShape (b : Bindings) : Shape → Expr → Prop where
  | number (value : Binary64) : HasShape b .number (number value)
  | var {name} : name = "pi" ∨ name = "e" ∨ (b.get? name).isSome →
      HasShape b .number (var name)
  | binary {op l r} : HasShape b .number l → HasShape b .number r →
      HasShape b .number (binary op l r)
  | neg {e} : HasShape b .number e → HasShape b .number (neg e)
  | factorial {e} : HasShape b .number e → HasShape b .number (factorial e)
  | call {func f args} : Builtin.ofName? func = some f → ¬ f.isHigherOrder →
      f.accepts args.length → (∀ arg ∈ args, HasShape b f.argumentShape arg) →
      HasShape b .number (call func args)
  | sequence {items} : (∀ item ∈ items, HasShape b .number item) →
      HasShape b .sequence (list items)
  | matrix {rows} : (∀ row ∈ rows, HasShape b .sequence row) →
      HasShape b .matrix (list rows)

section Places

variable {b : Bindings}

@[simp] theorem hasShape_number {value : Binary64} : HasShape b .number (number value) :=
  .number value

@[simp] theorem hasShape_var {name : String} :
    HasShape b .number (var name) ↔ name = "pi" ∨ name = "e" ∨ (b.get? name).isSome :=
  ⟨fun | .var h => h, .var⟩

@[simp] theorem hasShape_binary {op : Operator} {l r : Expr} :
    HasShape b .number (binary op l r) ↔ HasShape b .number l ∧ HasShape b .number r :=
  ⟨fun | .binary hl hr => ⟨hl, hr⟩, fun h => .binary h.1 h.2⟩

@[simp] theorem hasShape_neg {e : Expr} :
    HasShape b .number (neg e) ↔ HasShape b .number e :=
  ⟨fun | .neg h => h, .neg⟩

@[simp] theorem hasShape_factorial {e : Expr} :
    HasShape b .number (factorial e) ↔ HasShape b .number e :=
  ⟨fun | .factorial h => h, .factorial⟩

theorem hasShape_call {func : String} {args : List Expr} :
    HasShape b .number (call func args) ↔
      ∃ f, Builtin.ofName? func = some f ∧ ¬ f.isHigherOrder ∧ f.accepts args.length ∧
        ∀ arg ∈ args, HasShape b f.argumentShape arg :=
  ⟨fun | .call hf ho ha h => ⟨_, hf, ho, ha, h⟩, fun ⟨_, hf, ho, ha, h⟩ => .call hf ho ha h⟩

@[simp] theorem hasShape_list {items : List Expr} : ¬ HasShape b .number (list items) :=
  fun h => nomatch h

theorem hasShape_sequence {e : Expr} :
    HasShape b .sequence e ↔ ∃ items, e = list items ∧ ∀ item ∈ items, HasShape b .number item :=
  ⟨fun | .sequence h => ⟨_, rfl, h⟩, fun ⟨_, he, h⟩ => he ▸ .sequence h⟩

theorem hasShape_matrix {e : Expr} :
    HasShape b .matrix e ↔ ∃ rows, e = list rows ∧ ∀ row ∈ rows, HasShape b .sequence row :=
  ⟨fun | .matrix h => ⟨_, rfl, h⟩, fun ⟨_, he, h⟩ => he ▸ .matrix h⟩

end Places

theorem isList_iff {e : Expr} : e.isList ↔ ∃ items, e = list items := by
  cases e <;> simp [isList]

/-- The tree stands as a number, a flat list, or a list of flat lists. -/
def Fits : Shape → Expr → Prop
  | .number, e => ¬ e.isList
  | .sequence, e => ∃ items, e = list items ∧ ∀ item ∈ items, ¬ item.isList
  | .matrix, e =>
      ∃ rows, e = list rows ∧
        ∀ row ∈ rows, ∃ items, row = list items ∧ ∀ item ∈ items, ¬ item.isList

/-- What a node asks of its name, of its number of arguments and of the lists below it. -/
def NodeInPlace (b : Bindings) : Expr → Prop
  | number _ | list _ => True
  | var name => name = "pi" ∨ name = "e" ∨ (b.get? name).isSome
  | binary _ l r => l.Fits .number ∧ r.Fits .number
  | neg e | factorial e => e.Fits .number
  | call func args =>
      ∃ f, Builtin.ofName? func = some f ∧ ¬ f.isHigherOrder ∧ f.accepts args.length ∧
        ∀ arg ∈ args, arg.Fits f.argumentShape

/-- The whole tree stands as a number and each of its nodes is in place. -/
structure WellFormed (b : Bindings) (t : Expr) : Prop where
  root : t.Fits .number
  nodes : ∀ node ∈ t.preorder, node.NodeInPlace b

section WellFormed

variable {b : Bindings}

theorem HasShape.fits {s : Shape} {e : Expr} (h : HasShape b s e) : e.Fits s := by
  have hnumber {e : Expr} (h : HasShape b .number e) : ¬ e.isList := by
    intro hl
    obtain ⟨items, rfl⟩ := isList_iff.1 hl
    exact hasShape_list h
  cases s with
  | number => exact hnumber h
  | sequence =>
      obtain ⟨items, rfl, hitems⟩ := hasShape_sequence.1 h
      exact ⟨items, rfl, fun item hm => hnumber (hitems item hm)⟩
  | matrix =>
      obtain ⟨rows, rfl, hrows⟩ := hasShape_matrix.1 h
      refine ⟨rows, rfl, fun row hrow => ?_⟩
      obtain ⟨items, rfl, hitems⟩ := hasShape_sequence.1 (hrows row hrow)
      exact ⟨items, rfl, fun item hm => hnumber (hitems item hm)⟩

theorem HasShape.nodes {s : Shape} {e : Expr} (h : HasShape b s e) :
    ∀ node ∈ e.preorder, node.NodeInPlace b := by
  induction h with
  | number v => simp [preorder, NodeInPlace]
  | var h => simpa [preorder, NodeInPlace] using h
  | binary hl hr ihl ihr =>
      simp only [preorder, List.forall_mem_cons, List.forall_mem_append]
      exact ⟨⟨hl.fits, hr.fits⟩, ihl, ihr⟩
  | neg h ih | factorial h ih =>
      simp only [preorder, List.forall_mem_cons]
      exact ⟨h.fits, ih⟩
  | call hf ho ha h ih =>
      simp only [preorder, preorders_eq_flatMap, List.forall_mem_cons, List.mem_flatMap]
      refine ⟨⟨_, hf, ho, ha, fun arg hm => (h arg hm).fits⟩, ?_⟩
      rintro node ⟨arg, hm, hn⟩
      exact ih arg hm node hn
  | sequence h ih | matrix h ih =>
      simp only [preorder, preorders_eq_flatMap, List.forall_mem_cons, List.mem_flatMap]
      refine ⟨trivial, ?_⟩
      rintro node ⟨item, hm, hn⟩
      exact ih item hm node hn

theorem of_not_isList {e : Expr} (hl : e.isList = false) (h : HasShape b .number e) (s : Shape)
    (hf : e.Fits s) : HasShape b s e := by
  cases s with
  | number => exact h
  | sequence | matrix =>
      obtain ⟨items, rfl, -⟩ := hf
      cases hl

theorem hasShape_of_fits {e : Expr} (hn : ∀ node ∈ e.preorder, node.NodeInPlace b) :
    ∀ s, e.Fits s → HasShape b s e := by
  induction e with
  | number v => exact of_not_isList rfl (.number v)
  | var name => exact of_not_isList rfl (.var (hn (var name) (by simp [preorder])))
  | binary op l r ihl ihr =>
      simp only [preorder, List.forall_mem_cons, List.forall_mem_append] at hn
      obtain ⟨⟨hl, hr⟩, hnl, hnr⟩ := hn
      exact of_not_isList rfl (.binary (ihl hnl _ hl) (ihr hnr _ hr))
  | neg e ih =>
      simp only [preorder, List.forall_mem_cons] at hn
      exact of_not_isList rfl (.neg (ih hn.2 _ hn.1))
  | factorial e ih =>
      simp only [preorder, List.forall_mem_cons] at hn
      exact of_not_isList rfl (.factorial (ih hn.2 _ hn.1))
  | call func args ih =>
      simp only [preorder, preorders_eq_flatMap, List.forall_mem_cons, List.mem_flatMap] at hn
      obtain ⟨⟨f, hf, ho, ha, hargs⟩, hn⟩ := hn
      refine of_not_isList rfl (.call hf ho ha fun arg hm => ?_)
      exact ih arg hm (fun node hnode => hn node ⟨arg, hm, hnode⟩) _ (hargs arg hm)
  | list items ih =>
      simp only [preorder, preorders_eq_flatMap, List.forall_mem_cons, List.mem_flatMap] at hn
      have hitem (item) (hm : item ∈ items) : ∀ s, item.Fits s → HasShape b s item :=
        ih item hm fun node hnode => hn.2 node ⟨item, hm, hnode⟩
      rintro (_ | _ | _) hfits
      · exact absurd rfl hfits
      · obtain ⟨_, ⟨⟩, hflat⟩ := hfits
        exact .sequence fun item hm => hitem item hm .number (hflat item hm)
      · obtain ⟨_, ⟨⟩, hrows⟩ := hfits
        exact .matrix fun row hm => hitem row hm .sequence (hrows row hm)

theorem wellFormed_iff {t : Expr} : t.WellFormed b ↔ HasShape b .number t :=
  ⟨fun h => hasShape_of_fits h.nodes _ h.root, fun h => ⟨h.fits, h.nodes⟩⟩

end WellFormed

end Expr
end Reckon
