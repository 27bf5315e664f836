import SymbolicRegression.ExprType
import SymbolicRegression.Text.Blank
import SymbolicRegression.Text.Quoted

/-!
# Operators

An operator has a name, typed arguments, a result type and a function on numbers. Symbolic
expansion also needs to know what an operator means as arithmetic, if anything: that hint is read
off the conventional names.
-/

namespace SymbolicRegression

/-- What a call means as arithmetic. -/
inductive Arithmetic where
  | add
  | sub
  | mul
  | div
  | neg
  | pow
  /-- Nothing that expansion could use: the call stays a function. -/
  | unknown
  deriving Repr, DecidableEq

namespace Arithmetic

/-- Recognises the conventional names, in any case. -/
def ofName (name : String) : Arithmetic :=
  match Text.lower name with
  | "add" => add
  | "sub" => sub
  | "mul" => mul
  | "div" => div
  | "neg" => neg
  | "pow" => pow
  | _ => unknown

/-- How many operands the arithmetic takes, where it is known. -/
def arity? : Arithmetic → Option Nat
  | neg => some 1
  | unknown => none
  | _ => some 2

def name : Arithmetic → String
  | add => "Add"
  | sub => "Sub"
  | mul => "Mul"
  | div => "Div"
  | neg => "Neg"
  | pow => "Pow"
  | unknown => "Opaque"

end Arithmetic

/-- A function on numbers; it is only ever applied to as many as its owner takes. -/
abbrev Callable := List Float → Float

structure Operator where
  name : String
  arguments : List ExprType
  result : ExprType
  arithmetic : Arithmetic
  apply : Callable

namespace Operator

def arity (op : Operator) : Nat := op.arguments.length

/-- The signature on one line: `add(Variable, Variable) -> Variable as Add`. -/
def summary (op : Operator) : String :=
  op.name ++ "(" ++ ", ".intercalate (op.arguments.map ExprType.name) ++ ") -> "
    ++ op.result.name ++ " as " ++ op.arithmetic.name

/-- Every field that can be shown, by name; the function is only hinted at. -/
def details (op : Operator) : String :=
  "Primitive \x7b name: " ++ Text.quoted op.name ++ ", args: ["
    ++ ", ".intercalate (op.arguments.map ExprType.name) ++ "], ret: " ++ op.result.name
    ++ ", algebra: " ++ op.arithmetic.name ++ ", .. \x7d"

/-- Equality of everything that can be compared: the name and the signature. -/
def same (a b : Operator) : Bool :=
  a.name == b.name && a.arguments == b.arguments && a.result == b.result

instance : BEq Operator := ⟨same⟩

end Operator

end SymbolicRegression
