import SymbolicRegression.Node.Basic

/-!
# Preorder sequences

A sequence of nodes stands for a tree when the arities account for every node: reading from the
left, each node fills one open place and opens as many as it has children, and the places run out
exactly at the end. Read from the right, each operator finds the values of its children on top of
a stack, the leftmost child topmost; that gives the bottom-up fold.
-/

namespace SymbolicRegression

namespace Preorder

/-- Do the nodes fill `places` open places and everything they open themselves, exactly? -/
def fills : Nat → List Node → Bool
  | 0, [] => true
  | _ + 1, [] => false
  | 0, _ :: _ => false
  | places + 1, n :: ns => fills (places + n.arity) ns

/-- Does the sequence list exactly one tree? -/
def isValid (nodes : List Node) : Bool :=
  fills 1 nodes

section Fold

variable {α : Type} (leaf : Node → α) (branch : Node → List α → α)

/-- Pushes the value of one node: a node without children is a leaf, any other takes the values of
its children from the stack. None when the stack holds too few. -/
def push (n : Node) (stack : List α) : Option (List α) :=
  if n.arity = 0 then some (leaf n :: stack)
  else if stack.length < n.arity then none
  else some (branch n (stack.take n.arity) :: stack.drop n.arity)

/-- The stack of values after the nodes have been taken from the right. -/
def reduce (nodes : List Node) : Option (List α) :=
  nodes.foldr (fun n stack => stack.bind (push leaf branch n)) (some [])

/-- The bottom-up value of the tree that the sequence lists; none if it lists no single tree. -/
def fold? (nodes : List Node) : Option α :=
  match reduce leaf branch nodes with
  | some [value] => some value
  | _ => none

end Fold

/-- The height in levels; a lone leaf has height one. -/
def height? (nodes : List Node) : Option Nat :=
  fold? (fun _ => 1) (fun _ heights => heights.foldl max 0 + 1) nodes

/-- The depth of every node, where `pending` holds the depths of the places that are open, the next
one first. None when a node finds no open place. -/
def depthsFrom? : List Nat → List Node → Option (List Nat)
  | _, [] => some []
  | [], _ :: _ => none
  | d :: pending, n :: ns =>
    (depthsFrom? (List.replicate n.arity (d + 1) ++ pending) ns).map (d :: ·)

def depths? (nodes : List Node) : Option (List Nat) :=
  depthsFrom? [0] nodes

/-- How many nodes from the left fill the open places; none if the sequence ends before. -/
def filling? : Nat → List Node → Option Nat
  | 0, _ => some 0
  | _ + 1, [] => none
  | places + 1, n :: ns => (filling? (places + n.arity) ns).map (· + 1)

/-- The index just past the subtree that starts at `start`. -/
def subtreeEnd? (nodes : List Node) (start : Nat) : Option Nat :=
  (filling? 1 (nodes.drop start)).map (start + ·)

/-- The distinct constant names, in the order of first appearance. -/
def constantNames (nodes : List Node) : List String :=
  ((nodes.filter Node.isConstant).map Node.name).foldl
    (fun names name => if names.contains name then names else names ++ [name]) []

end Preorder

end SymbolicRegression
