import SymbolicRegression.Expr.Basic
import SymbolicRegression.Operator

/-!
# Programs

A program evaluates one expression again and again. Its instructions read parameters, literals and
slots, and each writes one slot. The parameters are the constants of the expression, in the order
of first appearance, and then all variables of the registry, in the order of declaration; a row of
data can therefore be appended to fixed constants.
-/

namespace SymbolicRegression

/-- Where an instruction reads a number from. -/
inductive Operand where
  | param (index : Nat)
  | literal (value : Float)
  | slot (index : Nat)

inductive Operation where
  | function (apply : Callable)
  | binary (op : BinaryOp)
  | negate

namespace Operation

/-- The result for the given operand values. -/
def apply : Operation → List Float → Option Float
  | function f, values => some (f values)
  | binary op, [a, b] => some (op.apply a b)
  | negate, [a] => some (-a)
  | _, _ => none

end Operation

structure Instruction where
  operation : Operation
  operands : List Operand
  target : Nat

structure Program where
  constantNames : List String
  variableNames : List String
  instructions : List Instruction
  slotCount : Nat
  result : Operand

namespace Program

/-- The names of all parameters: the constants, then the variables. -/
def params (p : Program) : List String :=
  p.constantNames ++ p.variableNames

/-- The number that an operand stands for; none if it lies outside of its table. -/
def read (params slots : Array Float) : Operand → Option Float
  | .param i => params[i]?
  | .literal value => some value
  | .slot i => slots[i]?

/-- Runs one instruction: all operands are read before the target is written. -/
def step (params : Array Float) (slots : Array Float) (i : Instruction) : Option (Array Float) := do
  let values ← i.operands.mapM (read params slots)
  let value ← i.operation.apply values
  if h : i.target < slots.size then some (slots.set i.target value h) else none

/-- Runs the instructions in order and reads the result; none if a step reads or writes outside of
its table. -/
def run (p : Program) (params : Array Float) : Option Float := do
  let slots ← p.instructions.foldlM (step params) (Array.replicate p.slotCount 0)
  read params slots p.result

/-- The value for one number per parameter; none if there are more or fewer. -/
def call? (p : Program) (arguments : List Float) : Option Float :=
  if arguments.length = p.params.length then p.run arguments.toArray else none

/-- Puts numbers in the place of the first ones of a list, as far as both reach. -/
def overwrite : List Float → List Float → List Float
  | _ :: old, v :: new => v :: overwrite old new
  | old, [] => old
  | [], _ :: _ => []

/-- The values for rows of data, one after the other. All rows pass through one list of arguments:
each row is written over the last one, behind the constants, which stay. -/
def predictFrom (p : Program) (arguments : List Float) : List (List Float) → Option (List Float)
  | [] => some []
  | row :: rows =>
    let fixed := p.constantNames.length
    let arguments := arguments.take fixed ++ overwrite (arguments.drop fixed) row
    match p.call? arguments with
    | none => none
    | some value => (p.predictFrom arguments rows).map (value :: ·)

/-- The value for every row of data, with the constants fixed; none if the number of constants or of
columns is wrong. -/
def predict? (p : Program) (constants : List Float) (columns : Nat) (rows : List (List Float)) :
    Option (List Float) :=
  if constants.length = p.constantNames.length ∧ columns = p.variableNames.length then
    p.predictFrom (constants ++ List.replicate p.variableNames.length 0) rows
  else none

end Program

end SymbolicRegression
