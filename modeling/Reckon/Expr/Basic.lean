import Reckon.Binary64.Arithmetic

/-!
Expression trees and the traversals that need no evaluation. A tree may be one that no text has:
negative numbers, unknown function names and any number of arguments are allowed.
-/

namespace Reckon

inductive Operator where
  | add
  | sub
  | mul
  | div
  | pow
deriving DecidableEq, Repr, Inhabited

inductive Expr where
  | number (value : Binary64)
  | var (name : String)
  | binary (op : Operator) (left right : Expr)
  | neg (operand : Expr)
  | factorial (operand : Expr)
  | call (func : String) (args : List Expr)
  | list (items : List Expr)
deriving Inhabited

namespace Expr

mutual

def nodeCount : Expr → Nat
  | number _ | var _ => 1
  | binary _ left right => 1 + left.nodeCount + right.nodeCount
  | neg operand | factorial operand => 1 + operand.nodeCount
  | call _ items | list items => 1 + nodeCounts items

def nodeCounts : List Expr → Nat
  | [] => 0
  | e :: es => e.nodeCount + nodeCounts es

end

mutual

/-- The number of nodes on the longest way from the root to a leaf. -/
def height : Expr → Nat
  | number _ | var _ => 1
  | binary _ left right => max left.height right.height + 1
  | neg operand | factorial operand => operand.height + 1
  | call _ items | list items => heights items + 1

/-- The height of the tallest tree, zero for none. -/
def heights : List Expr → Nat
  | [] => 0
  | e :: es => max e.height (heights es)

end

mutual

/-- All subtrees, each before its own children, left to right. -/
def preorder : Expr → List Expr
  | e@(number _) | e@(var _) => [e]
  | e@(binary _ left right) => e :: (left.preorder ++ right.preorder)
  | e@(neg operand) | e@(factorial operand) => e :: operand.preorder
  | e@(call _ items) | e@(list items) => e :: preorders items

def preorders : List Expr → List Expr
  | [] => []
  | e :: es => e.preorder ++ preorders es

end

mutual

/-- Rebuild the tree from the leaves up, letting `f` replace every rebuilt node. -/
def transform (f : Expr → Expr) : Expr → Expr
  | number value => f (number value)
  | var name => f (var name)
  | binary op left right => f (binary op (left.transform f) (right.transform f))
  | neg operand => f (neg (operand.transform f))
  | factorial operand => f (factorial (operand.transform f))
  | call func args => f (call func (transformAll f args))
  | list items => f (list (transformAll f items))

def transformAll (f : Expr → Expr) : List Expr → List Expr
  | [] => []
  | e :: es => e.transform f :: transformAll f es

end

/-- The variables of the tree in reading order, repetitions included. -/
def variableNames (e : Expr) : List String :=
  e.preorder.filterMap fun
    | var name => some name
    | _ => none

def mentions (name : String) (e : Expr) : Bool := e.variableNames.contains name

/-- Replace the variables that `value?` knows; the replacements are left as they are. -/
def substitute (value? : String → Option Expr) (e : Expr) : Expr :=
  e.transform fun
    | var name => (value? name).getD (var name)
    | node => node

mutual

/-- Equality of trees up to IEEE equality of their numbers. -/
def same : Expr → Expr → Bool
  | number x, number y => x.equals y
  | var x, var y => x == y
  | binary op left right, binary op' left' right' =>
    op == op' && left.same left' && right.same right'
  | neg operand, neg operand' | factorial operand, factorial operand' => operand.same operand'
  | call func args, call func' args' => func == func' && sameAll args args'
  | list items, list items' => sameAll items items'
  | _, _ => false

def sameAll : List Expr → List Expr → Bool
  | [], [] => true
  | e :: es, e' :: es' => e.same e' && sameAll es es'
  | _, _ => false

end

end Expr
end Reckon
