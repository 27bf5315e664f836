import SymbolicRegression.Number.Scalar

/-!
# Expressions

The syntax of the text notation: numbers, names, calls, negation and the five infix operations.
Expressions are written over any type of numbers; texts give expressions over `Float`.
-/

namespace SymbolicRegression

inductive BinaryOp where
  | add
  | sub
  | mul
  | div
  | pow
  deriving Repr, DecidableEq

namespace BinaryOp

def apply : BinaryOp → Float → Float → Float
  | add, a, b => a + b
  | sub, a, b => a - b
  | mul, a, b => a * b
  | div, a, b => a / b
  | pow, a, b => Float.pow a b

def symbol : BinaryOp → String
  | add => "+"
  | sub => "-"
  | mul => "*"
  | div => "/"
  | pow => "^"

end BinaryOp

/-- An expression over numbers of type `K`. -/
inductive Expr (K : Type) where
  | number (value : K)
  | name (name : String)
  | call (name : String) (arguments : List (Expr K))
  | neg (operand : Expr K)
  | binary (op : BinaryOp) (left right : Expr K)

namespace Expr

variable {K : Type}

mutual

/-- The names used as values, from left to right, repetitions included. -/
def names : Expr K → List String
  | number _ => []
  | name n => [n]
  | call _ arguments => namesAll arguments
  | neg e => e.names
  | binary _ l r => l.names ++ r.names

def namesAll : List (Expr K) → List String
  | [] => []
  | e :: es => e.names ++ namesAll es

end

end Expr

end SymbolicRegression
