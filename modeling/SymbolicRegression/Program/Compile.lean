import SymbolicRegression.Expr.Parser
import SymbolicRegression.Node.Text
import SymbolicRegression.Program
import SymbolicRegression.Registry

/-!
# Compiling expressions

The operands of a call are compiled from left to right, each leaving its value in a slot; then their
slots are released and the result takes the slot that was released last. Operands are read before
the result is written, so a released slot may serve at once.
-/

namespace SymbolicRegression

inductive CompileError where
  | parse (error : ParseError)
  | unknownName (name : String)
  | unknownFunction (name : String)
  | arity (name : String) (expected found : Nat)
  | invalidPreorder

namespace CompileError

def message : CompileError → String
  | parse error => "cannot parse expression: " ++ error.message
  | unknownName name => "unknown name " ++ Text.quoted name
  | unknownFunction name => "unknown function " ++ Text.quoted name
  | arity name expected found => s!"{name} takes {expected} arguments, got {found}"
  | invalidPreorder => "node sequence is not a valid preorder encoding"

end CompileError

/-- The constants of an expression, each once, in the order of first appearance. -/
def Expr.constantNames (e : Expr Float) : List String :=
  (e.names.filter Name.isConstant).foldl
    (fun found name => if found.contains name then found else found ++ [name]) []

namespace Program

structure Scope where
  registry : Registry
  constantNames : List String
  variableNames : List String

namespace Scope

/-- The parameter that a name stands for. A name of constant form is looked up among the constants
and any other among the variables. -/
def param? (scope : Scope) (name : String) : Option Nat :=
  if Name.isConstant name then scope.constantNames.idxOf? name
  else (scope.variableNames.idxOf? name).map (· + scope.constantNames.length)

/-- The function of that name and its number of arguments: an operator, or else a helper. -/
def function? (scope : Scope) (name : String) : Option (Callable × Nat) :=
  match scope.registry.operator? name with
  | some op => some (op.apply, op.arity)
  | none => (scope.registry.helper? name).map fun h => (h.apply, h.arity)

end Scope

/-- A program under construction: the instructions so far, the last one first, the released slots,
the last one first, and the number of slots in use or released. -/
structure Draft where
  instructions : List Instruction := []
  free : List Nat := []
  slotCount : Nat := 0

namespace Draft

/-- Puts the slots of the operands back among the free ones, from left to right. -/
def release (free : List Nat) (operands : List Operand) : List Nat :=
  operands.foldl (fun free operand =>
    match operand with
    | .slot i => i :: free
    | _ => free) free

/-- Appends an instruction and gives the slot of its result. -/
def emit (d : Draft) (operation : Operation) (operands : List Operand) : Operand × Draft :=
  match release d.free operands with
  | target :: free =>
    (.slot target, ⟨⟨operation, operands, target⟩ :: d.instructions, free, d.slotCount⟩)
  | [] =>
    (.slot d.slotCount,
      ⟨⟨operation, operands, d.slotCount⟩ :: d.instructions, [], d.slotCount + 1⟩)

end Draft

mutual

/-- Compiles an expression onto a draft and gives the place of its value. A call is checked, first
its name and then its number of arguments, before any of its arguments. -/
def compileOnto (scope : Scope) : Expr Float → Draft → Except CompileError (Operand × Draft)
  | .number value, d => .ok (.literal value, d)
  | .name name, d =>
    match scope.param? name with
    | some i => .ok (.param i, d)
    | none => .error (.unknownName name)
  | .neg e, d => do
    let (a, d) ← compileOnto scope e d
    return d.emit .negate [a]
  | .binary op l r, d => do
    let (a, d) ← compileOnto scope l d
    let (b, d) ← compileOnto scope r d
    return d.emit (.binary op) [a, b]
  | .call name arguments, d =>
    match scope.function? name with
    | none => .error (.unknownFunction name)
    | some (apply, expected) =>
      if expected ≠ arguments.length then .error (.arity name expected arguments.length)
      else do
        let (operands, d) ← compileAllOnto scope arguments d
        return d.emit (.function apply) operands

def compileAllOnto (scope : Scope) :
    List (Expr Float) → Draft → Except CompileError (List Operand × Draft)
  | [], d => .ok ([], d)
  | e :: es, d => do
    let (operand, d) ← compileOnto scope e d
    let (operands, d) ← compileAllOnto scope es d
    return (operand :: operands, d)

end

end Program

def Expr.compile (e : Expr Float) (registry : Registry) : Except CompileError Program := do
  let scope : Program.Scope := ⟨registry, e.constantNames, registry.variableNames⟩
  let (result, draft) ← Program.compileOnto scope e {}
  return {
    constantNames := scope.constantNames
    variableNames := scope.variableNames
    instructions := draft.instructions.reverse
    slotCount := draft.slotCount
    result }

def compile (text : String) (registry : Registry) : Except CompileError Program :=
  match parse text with
  | .error e => .error (.parse e)
  | .ok e => e.compile registry

end SymbolicRegression
