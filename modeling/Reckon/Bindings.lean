import Reckon.Binary64.Basic

/-!
Values of variables. Setting a name again replaces its value; names that were never set have none.
-/

namespace Reckon

/-- The name of the previous answer. -/
def answerName : String := "Ans"

structure Bindings where
  entries : List (String × Binary64)
deriving Inhabited

namespace Bindings

def empty : Bindings := ⟨[]⟩

def get? (b : Bindings) (name : String) : Option Binary64 :=
  (b.entries.find? fun (key, _) => key == name).map (·.2)

def set (b : Bindings) (name : String) (value : Binary64) : Bindings :=
  ⟨(name, value) :: b.entries.filter fun (key, _) => key != name⟩

def ofList (entries : List (String × Binary64)) : Bindings :=
  entries.foldl (fun b (name, value) => b.set name value) empty

def answer? (b : Bindings) : Option Binary64 := b.get? answerName

def setAnswer (b : Bindings) (value : Binary64) : Bindings := b.set answerName value

def withAnswer (value : Binary64) : Bindings := empty.setAnswer value

@[simp] theorem get?_empty (name : String) : empty.get? name = none := rfl

@[simp] theorem get?_set (b : Bindings) (name other : String) (value : Binary64) :
    (b.set name value).get? other = if name = other then some value else b.get? other := by
  by_cases h : name = other
  · simp [get?, set, h]
  · have hne : (name == other) = false := beq_eq_false_iff_ne.2 h
    simp only [get?, set, List.find?_cons, hne, if_neg h]
    congr 1
    induction b.entries with
    | nil => rfl
    | cons e es ih =>
      by_cases hk : e.1 = name
      · simpa [List.find?_cons, hk, hne] using ih
      · by_cases ho : e.1 = other
        · simp [ho, Ne.symm h]
        · simpa [List.find?_cons, hk, ho] using ih

end Bindings
end Reckon
