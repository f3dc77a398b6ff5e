import Mathlib.Data.List.Basic
import Reckon.Proofs.Expr.Readable
import Reckon.Proofs.Expr.Variables
import Reckon.Sidecar

/-!
What an expression looks like in the backend's language: variables under other names, and a
base behind each logarithm that has none. The relation says it node by node, apart from the
traversal that does it. Readable trees stay readable. What the backend makes of them is not
described.
-/

namespace Reckon.Expr

/-- The second tree has the first one's variables renamed and a base of ten in each logarithm
of one argument, and is the first one in everything else. -/
inductive Respells (rename : String → String) : Expr → Expr → Prop where
  | number (value : Binary64) : Respells rename (number value) (number value)
  | var (name : String) : Respells rename (var name) (var (rename name))
  | binary {op l l' r r'} : Respells rename l l' → Respells rename r r' →
      Respells rename (binary op l r) (binary op l' r')
  | neg {e e'} : Respells rename e e' → Respells rename (neg e) (neg e')
  | factorial {e e'} : Respells rename e e' → Respells rename (factorial e) (factorial e')
  | logarithm {arg arg'} : Respells rename arg arg' →
      Respells rename (call "log" [arg]) (call "log" [arg', number 10])
  | call {func} {pairs : List (Expr × Expr)} : (func = "log" → pairs.length ≠ 1) →
      (∀ pair ∈ pairs, Respells rename pair.1 pair.2) →
      Respells rename (call func (pairs.map (·.1))) (call func (pairs.map (·.2)))
  | list {pairs : List (Expr × Expr)} :
      (∀ pair ∈ pairs, Respells rename pair.1 pair.2) →
      Respells rename (list (pairs.map (·.1))) (list (pairs.map (·.2)))

/-- The tree with its variables renamed and its logarithms given their bases. -/
def respell (rename : String → String) (e : Expr) : Expr :=
  e.transform fun
    | var name => var (rename name)
    | call "log" [arg] => call "log" [arg, number 10]
    | node => node

/-- No logarithm of the tree lacks its base. -/
def Based (e : Expr) : Prop := ∀ arg, call "log" [arg] ∉ e.preorder

variable {ρ σ : String → String} {e e' : Expr}

section Equations

@[simp] theorem respell_number (value : Binary64) :
    (number value).respell ρ = number value := rfl

@[simp] theorem respell_var (name : String) : (var name).respell ρ = var (ρ name) := rfl

@[simp] theorem respell_binary (op : Operator) (l r : Expr) :
    (binary op l r).respell ρ = binary op (l.respell ρ) (r.respell ρ) := rfl

@[simp] theorem respell_neg (e : Expr) : (neg e).respell ρ = neg (e.respell ρ) := rfl

@[simp] theorem respell_factorial (e : Expr) :
    (factorial e).respell ρ = factorial (e.respell ρ) := rfl

@[simp] theorem respell_list (items : List Expr) :
    (list items).respell ρ = list (items.map (respell ρ)) := by
  simp only [respell, transform, transformAll_eq_map]
  rfl

@[simp] theorem respell_logarithm (arg : Expr) :
    (call "log" [arg]).respell ρ = call "log" [arg.respell ρ, number 10] := rfl

theorem respell_call {func : String} {args : List Expr} (h : func = "log" → args.length ≠ 1) :
    (call func args).respell ρ = call func (args.map (respell ρ)) := by
  simp only [respell, transform, transformAll_eq_map]
  split
  · rename_i heq
    cases heq
  · rename_i heq
    obtain ⟨rfl, hargs⟩ := call.inj heq
    have hlength := congrArg List.length hargs
    rw [List.length_map] at hlength
    exact absurd hlength (h rfl)
  · rfl

/-- A call is a logarithm that lacks its base, or it is not. -/
theorem call_cases (func : String) (args : List Expr) :
    (∃ arg, func = "log" ∧ args = [arg]) ∨ (func = "log" → args.length ≠ 1) := by
  by_cases h : func = "log" ∧ args.length = 1
  · obtain ⟨arg, harg⟩ := List.length_eq_one_iff.1 h.2
    exact .inl ⟨arg, h.1, harg⟩
  · exact .inr (not_and.1 h)

end Equations

section Relation

theorem respells_call_map {func : String} {args : List Expr}
    (h : func = "log" → args.length ≠ 1) (ih : ∀ e ∈ args, Respells ρ e (e.respell ρ)) :
    Respells ρ (call func args) (call func (args.map (respell ρ))) := by
  have hcall := @Respells.call ρ func (args.map fun e => (e, e.respell ρ))
    (by simpa using h) (by simpa using ih)
  simpa [Function.comp_def] using hcall

theorem respells_list_map {items : List Expr} (ih : ∀ e ∈ items, Respells ρ e (e.respell ρ)) :
    Respells ρ (list items) (list (items.map (respell ρ))) := by
  have hlist := @Respells.list ρ (items.map fun e => (e, e.respell ρ)) (by simpa using ih)
  simpa [Function.comp_def] using hlist

theorem respells_respell (e : Expr) : Respells ρ e (e.respell ρ) := by
  induction e with
  | number value => exact .number value
  | var name => exact .var name
  | binary op l r ihl ihr => exact .binary ihl ihr
  | neg e ih => exact .neg ih
  | factorial e ih => exact .factorial ih
  | call func args ih =>
      obtain ⟨arg, rfl, rfl⟩ | h := call_cases func args
      · exact .logarithm (ih arg (List.mem_singleton_self arg))
      · rw [respell_call h]
        exact respells_call_map h ih
  | list items ih =>
      rw [respell_list]
      exact respells_list_map ih

theorem map_snd_eq_respell {pairs : List (Expr × Expr)}
    (h : ∀ pair ∈ pairs, pair.2 = pair.1.respell ρ) :
    pairs.map (·.2) = (pairs.map (·.1)).map (respell ρ) := by
  rw [List.map_map]
  exact List.map_congr_left h

theorem Respells.eq_respell (h : Respells ρ e e') : e' = e.respell ρ := by
  induction h with
  | number | var => rfl
  | binary _ _ ihl ihr => rw [respell_binary, ← ihl, ← ihr]
  | neg _ ih => rw [respell_neg, ← ih]
  | factorial _ ih => rw [respell_factorial, ← ih]
  | logarithm _ ih => rw [respell_logarithm, ← ih]
  | call hcount _ ih =>
      rw [respell_call (by simpa using hcount), map_snd_eq_respell ih]
  | list _ ih => rw [respell_list, map_snd_eq_respell ih]

/-- Every tree is respelled in one way. -/
theorem respells_iff : Respells ρ e e' ↔ e' = e.respell ρ :=
  ⟨Respells.eq_respell, fun h => h ▸ respells_respell e⟩

end Relation

section Based

@[simp] theorem based_number (value : Binary64) : (number value).Based := by
  simp [Based, preorder]

@[simp] theorem based_var (name : String) : (var name).Based := by
  simp [Based, preorder]

@[simp] theorem based_binary {op : Operator} {l r : Expr} :
    (binary op l r).Based ↔ l.Based ∧ r.Based := by
  simp [Based, preorder, not_or, forall_and]

@[simp] theorem based_neg : (neg e).Based ↔ e.Based := by
  simp [Based, preorder]

@[simp] theorem based_factorial : (factorial e).Based ↔ e.Based := by
  simp [Based, preorder]

theorem based_call {func : String} {args : List Expr} :
    (call func args).Based ↔
      (func = "log" → args.length ≠ 1) ∧ ∀ arg ∈ args, arg.Based := by
  simp only [Based, preorder, preorders_eq_flatMap, List.mem_cons, List.mem_flatMap, not_or,
    not_exists, not_and, forall_and, call.injEq]
  refine and_congr ⟨fun h hfunc hlength => ?_, fun h arg hfunc hargs => ?_⟩ ?_
  · obtain ⟨arg, rfl⟩ := List.length_eq_one_iff.1 hlength
    exact h arg hfunc.symm rfl
  · exact h hfunc.symm (by rw [← hargs]; rfl)
  · exact ⟨fun h item hm arg => h arg item hm, fun h arg item hm => h item hm arg⟩

@[simp] theorem based_list {items : List Expr} :
    (list items).Based ↔ ∀ item ∈ items, item.Based := by
  simp only [Based, preorder, preorders_eq_flatMap, List.mem_cons, List.mem_flatMap, not_or,
    not_exists, not_and, reduceCtorEq, not_false_eq_true, true_and]
  exact ⟨fun h item hm arg => h arg item hm, fun h arg item hm => h item hm arg⟩

theorem based_respell (e : Expr) : (e.respell ρ).Based := by
  induction e with
  | number value => exact based_number value
  | var name => exact based_var (ρ name)
  | binary op l r ihl ihr => exact based_binary.2 ⟨ihl, ihr⟩
  | neg e ih => exact based_neg.2 ih
  | factorial e ih => exact based_factorial.2 ih
  | call func args ih =>
      obtain ⟨arg, rfl, rfl⟩ | h := call_cases func args
      · simpa [based_call] using ih
      · rw [respell_call h, based_call, List.length_map, List.forall_mem_map]
        exact ⟨h, ih⟩
  | list items ih =>
      rw [respell_list, based_list, List.forall_mem_map]
      exact ih

end Based

section Measures

theorem one_le_height (e : Expr) : 1 ≤ e.height := by
  cases e <;> simp [height]

theorem map_respell_congr {items : List Expr} {α : Type} {f : Expr → α}
    (h : ∀ e ∈ items, f (e.respell ρ) = f e) : (items.map (respell ρ)).map f = items.map f := by
  rw [List.map_map]
  exact List.map_congr_left h

theorem nestings_eq_foldr (es : List Expr) :
    nestings es = (es.map nesting).foldr (fun n rest => max (n + 1) rest) 0 := by
  induction es with
  | nil => rfl
  | cons e es ih =>
      rw [nestings, ih]
      rfl

theorem nestings_map_respell {es : List Expr} (h : ∀ e ∈ es, (e.respell ρ).nesting = e.nesting) :
    nestings (es.map (respell ρ)) = nestings es := by
  rw [nestings_eq_foldr, nestings_eq_foldr, map_respell_congr h]

/-- A base is no taller than what stands beside it. -/
theorem height_respell (e : Expr) : (e.respell ρ).height = e.height := by
  induction e with
  | number value => rfl
  | var name => rfl
  | binary op l r ihl ihr => rw [respell_binary, height, height, ihl, ihr]
  | neg e ih => rw [respell_neg, height, height, ih]
  | factorial e ih => rw [respell_factorial, height, height, ih]
  | call func args ih =>
      obtain ⟨arg, rfl, rfl⟩ | h := call_cases func args
      · have hone := one_le_height arg
        simp only [respell_logarithm, height, heights, ih arg (List.mem_singleton_self arg)]
        omega
      · rw [respell_call h, height, height, heights_map ih]
  | list items ih => rw [respell_list, height, height, heights_map ih]

theorem strength_respell (e : Expr) : (e.respell ρ).strength = e.strength := by
  cases e with
  | call func args =>
      obtain ⟨arg, rfl, rfl⟩ | h := call_cases func args
      · rfl
      · rw [respell_call h]
        rfl
  | list items => rw [respell_list]; rfl
  | number | var | binary | neg | factorial => rfl

theorem enclosed_respell (least : Nat) (e : Expr) (n : Nat) :
    enclosed least (e.respell ρ) n = enclosed least e n := by
  rw [enclosed, enclosed, strength_respell]

/-- A base stands inside no more constructs than what stands beside it. -/
theorem nesting_respell (e : Expr) : (e.respell ρ).nesting = e.nesting := by
  induction e with
  | number value => rfl
  | var name => rfl
  | binary op l r ihl ihr =>
      cases op <;> simp only [respell_binary, nesting, enclosed_respell, ihl, ihr]
  | neg e ih => simp only [respell_neg, nesting, enclosed_respell, ih]
  | factorial e ih => simp only [respell_factorial, nesting, enclosed_respell, ih]
  | call func args ih =>
      obtain ⟨arg, rfl, rfl⟩ | h := call_cases func args
      · simp only [respell_logarithm, nesting, nestings, ih arg (List.mem_singleton_self arg)]
        omega
      · rw [respell_call h, nesting, nesting, nestings_map_respell ih]
  | list items ih => rw [respell_list, nesting, nesting, nestings_map_respell ih]

end Measures

section Readable

theorem isNegative_ten : (10 : Binary64).isNegative = false := by decide +kernel

theorem isFinite_ten : (10 : Binary64).isFinite := by decide +kernel

@[simp] theorem signed_ten : (number 10).signed = number 10 := by
  rw [signed_number, signedNumber, isNegative_ten]
  rfl

theorem map_signed_respell {es : List Expr}
    (h : ∀ e ∈ es, (e.respell ρ).signed = e.signed.respell ρ) :
    (es.map (respell ρ)).map signed = (es.map signed).map (respell ρ) := by
  rw [List.map_map, List.map_map]
  exact List.map_congr_left h

theorem signed_respell (e : Expr) : (e.respell ρ).signed = e.signed.respell ρ := by
  induction e with
  | number value =>
      rw [respell_number, signed_number, signedNumber]
      split <;> rfl
  | var name => rfl
  | binary op l r ihl ihr => simp only [respell_binary, signed_binary, ihl, ihr]
  | neg e ih => simp only [respell_neg, signed_neg, ih]
  | factorial e ih => simp only [respell_factorial, signed_factorial, ih]
  | call func args ih =>
      obtain ⟨arg, rfl, rfl⟩ | h := call_cases func args
      · simp only [respell_logarithm, signed_call, List.map_cons, List.map_nil, signed_ten,
          ih arg (List.mem_singleton_self arg)]
      · rw [respell_call h, signed_call, signed_call, respell_call (by simpa using h),
          map_signed_respell ih]
  | list items ih =>
      rw [respell_list, signed_list, signed_list, respell_list, map_signed_respell ih]

theorem printable_respell (hρ : ∀ name, (var name).Printable → (var (ρ name)).Printable)
    (h : e.Printable) : (e.respell ρ).Printable := by
  induction e with
  | number value => exact h
  | var name => exact hρ name h
  | binary op l r ihl ihr =>
      obtain ⟨hl, hr⟩ := printable_binary.1 h
      exact printable_binary.2 ⟨ihl hl, ihr hr⟩
  | neg e ih => exact printable_neg.2 (ih (printable_neg.1 h))
  | factorial e ih => exact printable_factorial.2 (ih (printable_factorial.1 h))
  | call func args ih =>
      obtain ⟨hfunc, hargs⟩ := printable_call.1 h
      obtain ⟨arg, rfl, rfl⟩ | hcall := call_cases func args
      · have harg := List.mem_singleton_self arg
        simpa [hfunc, isFinite_ten] using ih arg harg (hargs arg harg)
      · rw [respell_call hcall, printable_call, List.forall_mem_map]
        exact ⟨hfunc, fun e he => ih e he (hargs e he)⟩
  | list items ih =>
      have hitems := printable_list.1 h
      rw [respell_list, printable_list, List.forall_mem_map]
      exact fun e he => ih e he (hitems e he)

/-- Respelling leaves a tree readable if every name that can be written stays one. -/
theorem Readable.respell (hρ : ∀ name, (var name).Printable → (var (ρ name)).Printable)
    (h : e.Readable) : (e.respell ρ).Readable where
  printable := printable_respell hρ h.printable
  signed_eq := by rw [signed_respell, h.signed_eq]
  nesting_le := by rw [nesting_respell]; exact h.nesting_le
  height_le := by rw [height_respell]; exact h.height_le

end Readable

section Repeated

theorem variableNames_respell (e : Expr) :
    (e.respell ρ).variableNames = e.variableNames.map ρ := by
  have hitems {es : List Expr} (h : ∀ e ∈ es, (e.respell ρ).variableNames = e.variableNames.map ρ) :
      (es.map (respell ρ)).flatMap variableNames = (es.flatMap variableNames).map ρ := by
    rw [List.flatMap_map, List.map_flatMap]
    exact List.flatMap_congr h
  induction e with
  | number value => simp
  | var name => simp
  | binary op l r ihl ihr => simp [ihl, ihr]
  | neg e ih | factorial e ih => simpa using ih
  | call func args ih =>
      obtain ⟨arg, rfl, rfl⟩ | h := call_cases func args
      · simpa using ih
      · rw [respell_call h, variableNames_call, variableNames_call, hitems ih]
  | list items ih => rw [respell_list, variableNames_list, variableNames_list, hitems ih]

/-- Where the bases are there, only names are respelled any more. -/
theorem respell_respell (e : Expr) : (e.respell σ).respell ρ = e.respell (ρ ∘ σ) := by
  have hitems {es : List Expr} (h : ∀ e ∈ es, (e.respell σ).respell ρ = e.respell (ρ ∘ σ)) :
      (es.map (respell σ)).map (respell ρ) = es.map (respell (ρ ∘ σ)) := by
    rw [List.map_map]
    exact List.map_congr_left h
  induction e with
  | number value => rfl
  | var name => rfl
  | binary op l r ihl ihr => simp only [respell_binary, ihl, ihr]
  | neg e ih => simp only [respell_neg, ih]
  | factorial e ih => simp only [respell_factorial, ih]
  | call func args ih =>
      obtain ⟨arg, rfl, rfl⟩ | h := call_cases func args
      · rw [respell_logarithm, respell_call (by simp)]
        simp [ih arg (List.mem_singleton_self arg)]
      · rw [respell_call h, respell_call (by simpa using h), respell_call h, hitems ih]
  | list items ih => rw [respell_list, respell_list, respell_list, hitems ih]

end Repeated

/-- The backend's name for a variable of expression text, or for a constant. -/
def backendName (name : String) : String := if name = "e" then "E" else name

theorem backendForm_eq_respell (e : Expr) : e.backendForm = e.respell backendName := by
  rw [backendForm, respell]
  congr 1
  funext node
  cases node with
  | var name =>
      by_cases h : name = "e"
      · rw [h]
        rfl
      · simp [backendName, h]
  | call func args =>
      obtain ⟨arg, rfl, rfl⟩ | h := call_cases func args
      · rfl
      · split <;> split <;> simp_all
  | _ => rfl

theorem printable_backendName (name : String) (h : (var name).Printable) :
    (var (backendName name)).Printable := by
  rw [backendName]
  split
  · exact printable_var.2 ⟨by rfl, by decide⟩
  · exact h

theorem Readable.backendForm (h : e.Readable) : e.backendForm.Readable :=
  backendForm_eq_respell e ▸ h.respell printable_backendName

theorem backendName_ne (name : String) : backendName name ≠ "e" := by
  rw [backendName]
  split
  · decide
  · assumption

theorem backendName_comp_self : backendName ∘ backendName = backendName := by
  funext name
  rw [Function.comp_apply]
  exact if_neg (backendName_ne name)

theorem backendForm_backendForm (e : Expr) : e.backendForm.backendForm = e.backendForm := by
  simp only [backendForm_eq_respell, respell_respell, backendName_comp_self]

/-- The text that is sent for a tree that was read is read as that tree with Euler's number
renamed and a base of ten in each logarithm that has none, the same in everything else. Then
Euler's number is gone, no logarithm lacks its base, and nothing is left to respell. -/
theorem parse_backendForm_text {position : Nat} {cs : List Char} {parsed : Parsed}
    (h : Expr.parseAt position cs = .ok parsed) :
    ∃ reparsed, Expr.parse parsed.expr.backendForm.text = .ok reparsed ∧
      (∀ e, Respells backendName parsed.expr e ↔ e = reparsed.expr) ∧
      "e" ∉ reparsed.expr.variableNames ∧ reparsed.expr.Based ∧
      reparsed.expr.backendForm.text = parsed.expr.backendForm.text := by
  obtain ⟨reparsed, hr, heq⟩ := (Readable.of_parseAt h).backendForm.parse_text
  refine ⟨reparsed, hr, fun e => ?_, ?_, ?_, ?_⟩
  · rw [respells_iff, heq, backendForm_eq_respell]
  · rw [heq, backendForm_eq_respell, variableNames_respell]
    intro hmem
    obtain ⟨name, -, hname⟩ := List.mem_map.1 hmem
    exact backendName_ne name hname
  · rw [heq, backendForm_eq_respell]
    exact based_respell parsed.expr
  · rw [heq, backendForm_backendForm]

theorem parse_backendForm_text_nested :
    ∃ parsed reparsed, Expr.parse "log(log(e)^x, log(2)) + mean([e, log(7, e)])" = .ok parsed ∧
      parsed.expr.backendForm.text =
        "log(log(E, 10)^x, log(2, 10)) + mean([E, log(7, E)])" ∧
      Expr.parse parsed.expr.backendForm.text = .ok reparsed ∧
      Respells backendName parsed.expr reparsed.expr ∧ reparsed.expr.Based ∧
      reparsed.expr.backendForm.text = parsed.expr.backendForm.text := by
  have h : (Expr.parse "log(log(e)^x, log(2)) + mean([e, log(7, e)])").toOption.map
      (·.expr.backendForm.text) =
        some "log(log(E, 10)^x, log(2, 10)) + mean([E, log(7, E)])" := by decide +kernel
  obtain ⟨parsed, hp, htext⟩ := exists_of_map_toOption h
  obtain ⟨reparsed, hr, hrespells, -, hbased, hagain⟩ := parse_backendForm_text hp
  exact ⟨parsed, reparsed, hp, htext, hr, (hrespells _).2 rfl, hbased, hagain⟩

end Reckon.Expr
