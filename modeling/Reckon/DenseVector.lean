import Reckon.Failure
import Reckon.Scalar

/-!
Vectors as plain sequences: dot product, Euclidean norm and sum. Two vectors must be of one length,
and that is checked before they are checked for being empty.
-/

namespace Reckon.DenseVector

variable {α : Type} [Scalar α]

def requireSameLength (op : String) (u v : List α) : Except Failure Unit :=
  if u.length ≠ v.length then .error (.of (.dimension (.vectorLengths op u.length v.length)))
  else .ok ()

def requireEntries (op : String) (v : List α) : Except Failure Unit :=
  if v.isEmpty then .error (.of (.emptyInput op)) else .ok ()

def dot (u v : List α) : Except Failure (Measured α) := do
  requireSameLength "dot" u v
  requireEntries "dot" u
  return ⟨Scalar.sumOfProducts u v, u.length + v.length⟩

/-- The Euclidean norm. -/
def norm {β : Type} [RootScalar β] (v : List β) : Except Failure (Measured β) := do
  requireEntries "norm" v
  return ⟨RootScalar.sqrt (Scalar.sumOfProducts v v), v.length⟩

def add (u v : List α) : Except Failure (Measured (List α)) := do
  requireSameLength "add" u v
  requireEntries "add" u
  return ⟨List.zipWith (· + ·) u v, u.length + v.length⟩

end Reckon.DenseVector
