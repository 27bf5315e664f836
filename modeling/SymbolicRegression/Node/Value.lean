import SymbolicRegression.Node.Preorder

/-!
# The value of a preorder sequence

A sequence of nodes can be evaluated as it stands, without being written out or compiled: every
operator is applied to the values of its children, from the leaves up.
-/

namespace SymbolicRegression

/-- The value of a node whose children have the given values. A terminal stands for the number of
its name. -/
def Node.value (number : String → Float) : Node → List Float → Float
  | operator op, values => op.apply values
  | terminal t, _ => number t.name

/-- The value of the tree that the sequence lists; none if it lists no single tree. -/
def Preorder.value? (number : String → Float) (nodes : List Node) : Option Float :=
  fold? (fun n => n.value number []) (fun n values => n.value number values) nodes

end SymbolicRegression
