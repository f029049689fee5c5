import Mathlib.Data.List.Basic

/-!
# Trees with any number of children

The subtrees of a tree depth first, and breadth first level by level.
-/

namespace Kairax.Lib

inductive Rose (α : Type*)
  | node (val : α) (children : List (Rose α))

namespace Rose

variable {α : Type*}

def val : Rose α → α
  | .node a _ => a

def children : Rose α → List (Rose α)
  | .node _ ts => ts

mutual

/-- All subtrees, a tree before its children and these in their order. -/
def subtrees : Rose α → List (Rose α)
  | .node a ts => .node a ts :: subtreesAll ts

def subtreesAll : List (Rose α) → List (Rose α)
  | [] => []
  | t :: ts => t.subtrees ++ subtreesAll ts

end

def levels : Nat → List (Rose α) → List (Rose α)
  | 0, _ => []
  | n + 1, ts => ts ++ levels n (ts.flatMap children)

/-- The subtrees breadth first. No tree has more levels than subtrees. -/
def breadthFirst (t : Rose α) : List (Rose α) := levels t.subtrees.length [t]

end Rose

end Kairax.Lib
