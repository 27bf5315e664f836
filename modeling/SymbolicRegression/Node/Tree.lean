import SymbolicRegression.Node.Basic

/-!
# Ordered trees of nodes

A tree carries its children explicitly. Its preorder lists the root and then the children from left
to right; that listing is the form in which candidates are stored.
-/

namespace SymbolicRegression

inductive Tree where
  | node (label : Node) (children : List Tree)

namespace Tree

def label : Tree → Node
  | node n _ => n

def children : Tree → List Tree
  | node _ ts => ts

def leaf (t : Terminal) : Tree :=
  node (.terminal t) []

mutual

/-- The labels of the tree, the root first and the children from left to right. -/
def preorder : Tree → List Node
  | node n ts => n :: preorderAll ts

def preorderAll : List Tree → List Node
  | [] => []
  | t :: ts => preorder t ++ preorderAll ts

end

end Tree

end SymbolicRegression
