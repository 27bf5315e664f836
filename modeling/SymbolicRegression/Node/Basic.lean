import SymbolicRegression.Name
import SymbolicRegression.Operator

/-!
# Nodes

A candidate expression is kept as the sequence of its nodes in preorder. A node is an operator, with
as many children as the operator has arguments, or a terminal, which has none.
-/

namespace SymbolicRegression

inductive TerminalKind where
  | var
  | const
  deriving Repr, DecidableEq

/-- A leaf: a named input variable or a named free constant. -/
structure Terminal where
  name : String
  kind : TerminalKind
  deriving Repr, DecidableEq

namespace Terminal

def var (name : String) : Terminal := ⟨name, .var⟩

def const (name : String) : Terminal := ⟨name, .const⟩

def type (t : Terminal) : ExprType :=
  match t.kind with
  | .var => .var
  | .const => .const

end Terminal

/-- One entry of a preorder sequence. -/
inductive Node where
  | operator (op : Operator)
  | terminal (t : Terminal)

namespace Node

def arity : Node → Nat
  | operator op => op.arity
  | terminal _ => 0

/-- The type of the value that the node produces. -/
def type : Node → ExprType
  | operator op => op.result
  | terminal t => t.type

def name : Node → String
  | operator op => op.name
  | terminal t => t.name

def isConstant : Node → Bool
  | terminal t => t.kind == .const
  | operator _ => false

def isVariable : Node → Bool
  | terminal t => t.kind == .var
  | operator _ => false

def isOperator : Node → Bool
  | operator _ => true
  | terminal _ => false

/-- Equality of everything that can be compared. -/
def same : Node → Node → Bool
  | operator a, operator b => a == b
  | terminal a, terminal b => a == b
  | _, _ => false

instance : BEq Node := ⟨same⟩

end Node

end SymbolicRegression
