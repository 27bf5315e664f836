import SymbolicRegression.Number.Scalar
import SymbolicRegression.Operator

/-!
# Stock operators

A fixed table of operators that can be registered by name. Each is a function of one or of two
numbers.
-/

namespace SymbolicRegression

structure Builtin where
  name : String
  arity : Nat
  arithmetic : Arithmetic
  apply : Callable

namespace Builtin

def unary (name : String) (f : Float → Float) (arithmetic : Arithmetic) : Builtin where
  name
  arity := 1
  arithmetic
  apply
    | a :: _ => f a
    | [] => 0

def binary (name : String) (f : Float → Float → Float) (arithmetic : Arithmetic) : Builtin where
  name
  arity := 2
  arithmetic
  apply
    | a :: b :: _ => f a b
    | _ => 0

/-- The stock operators, in the order of the table. -/
def all : List Builtin := [
  binary "add" (· + ·) .add,
  binary "sub" (· - ·) .sub,
  binary "mul" (· * ·) .mul,
  binary "div" (· / ·) .div,
  binary "pow" Float.pow .pow,
  unary "neg" (- ·) .neg,
  unary "sin" Float.sin .unknown,
  unary "cos" Float.cos .unknown,
  unary "tan" Float.tan .unknown,
  unary "tanh" Float.tanh .unknown,
  unary "exp" Float.exp .unknown,
  unary "log" Float.log .unknown,
  unary "sqrt" Float.sqrt .unknown,
  unary "abs" Float.abs .unknown,
  unary "square" (fun a => a * a) .unknown,
  unary "inv" (fun a => 1 / a) .unknown,
  binary "max" Scalar.max .unknown,
  binary "min" Scalar.min .unknown]

def find? (name : String) : Option Builtin :=
  all.find? fun b => Text.sameIgnoringCase b.name name

/-- Applies the operator to the first numbers of the list; none if there are too few. -/
def call? (b : Builtin) (arguments : List Float) : Option Float :=
  if arguments.length < b.arity then none else some (b.apply arguments)

end Builtin

end SymbolicRegression
