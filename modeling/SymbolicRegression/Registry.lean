import SymbolicRegression.Builtin
import SymbolicRegression.Node.Basic
import SymbolicRegression.Text.Quoted

/-!
# Registries

A registry is the catalogue of one problem: the operators that may become nodes, the terminals that
may become leaves, and helper functions that only texts may call. Registering under a name that is
taken is refused; minting a variable is not registering, and takes whatever name comes next.
-/

namespace SymbolicRegression

/-- A terminal that a generator can draw: one fixed leaf, or a fresh constant at every draw. -/
inductive TerminalSpec where
  | named (t : Terminal)
  | ephemeral
  deriving Repr, DecidableEq

namespace TerminalSpec

def type : TerminalSpec → ExprType
  | named t => t.type
  | ephemeral => .const

/-- The leaf that one draw yields. -/
def instantiate (spec : TerminalSpec) (supply : Supply) : Terminal × Supply :=
  match spec with
  | named t => (t, supply)
  | ephemeral =>
    let (name, supply) := supply.freshConstant
    (Terminal.const name, supply)

end TerminalSpec

/-- A function that texts may call and trees never hold. -/
structure Helper where
  name : String
  arity : Nat
  apply : Callable

/-- Every field that can be shown, by name; the function is only hinted at. -/
def Helper.details (h : Helper) : String :=
  "Helper \x7b name: " ++ Text.quoted h.name ++ ", arity: " ++ toString h.arity ++ ", .. \x7d"

inductive RegistryError where
  | duplicateName (name : String)
  | arityMismatch (name : String) (arity argumentCount : Nat)
  | unknownBuiltin (name : String)
  deriving Repr, DecidableEq

namespace RegistryError

def message : RegistryError → String
  | duplicateName name => s!"name {Text.quoted name} is already registered"
  | arityMismatch name arity count =>
    s!"operator {Text.quoted name} declares arity {arity} but {count} argument types"
  | unknownBuiltin name => s!"unknown builtin operator {Text.quoted name}"

end RegistryError

/-- The catalogue of one problem. Operators, helpers and terminals are kept in the order in which
they were registered. -/
structure Registry where
  name : String
  /-- The type of the trees that are generated when no other is asked for. -/
  rootType : ExprType
  operators : List Operator := []
  helpers : List Helper := []
  terminals : List TerminalSpec := []
  /-- A source of variable names of its own; without one the shared supply is used. -/
  variableCounter : Option NameCounter := none

namespace Registry

/-- The declared variables, in the order of declaration. -/
def variableNames (r : Registry) : List String :=
  r.terminals.filterMap fun
    | .named t => if t.kind = .var then some t.name else none
    | .ephemeral => none

def variableIndex? (r : Registry) (name : String) : Option Nat :=
  r.variableNames.idxOf? name

def isVariable (r : Registry) (name : String) : Bool :=
  (r.variableIndex? name).isSome

def operator? (r : Registry) (name : String) : Option Operator :=
  r.operators.find? fun op => op.name == name

def helper? (r : Registry) (name : String) : Option Helper :=
  r.helpers.find? fun h => h.name == name

def operatorsOf (r : Registry) (type : ExprType) : List Operator :=
  r.operators.filter fun op => op.result == type

/-- Every operator, grouped by its result type. -/
def groupedOperators (r : Registry) : List Operator :=
  ExprType.all.flatMap r.operatorsOf

/-- The operators whose result can stand in for `type`, grouped by their result type. -/
def operatorsReturning (r : Registry) (type : ExprType) : List Operator :=
  (ExprType.all.filter fun t => t.isSubtype type).flatMap r.operatorsOf

def terminalsOf (r : Registry) (type : ExprType) : List TerminalSpec :=
  r.terminals.filter fun spec => spec.type == type

/-- The terminals that can stand in for `type`, grouped by their type. -/
def terminalsFor (r : Registry) (type : ExprType) : List TerminalSpec :=
  (ExprType.all.filter fun t => t.isSubtype type).flatMap r.terminalsOf

def operatorWithSignature? (r : Registry) (arguments : List ExprType) (result : ExprType) :
    Option Operator :=
  (r.operatorsOf result).find? fun op => op.arguments == arguments

/-- Does an operator, a helper or a named terminal carry this name? -/
def isTaken (r : Registry) (name : String) : Bool :=
  (r.operator? name).isSome || (r.helper? name).isSome
    || r.terminals.any fun
      | .named t => t.name == name
      | .ephemeral => false

def checkFree (r : Registry) (name : String) : Except RegistryError Unit :=
  if r.isTaken name then .error (.duplicateName name) else .ok ()

def addOperator (r : Registry) (op : Operator) : Registry :=
  { r with operators := r.operators ++ [op] }

/-- Registers an operator that was declared with the given arity. -/
def registerOperator (r : Registry) (arity : Nat) (op : Operator) :
    Except RegistryError Registry := do
  if arity ≠ op.arguments.length then
    throw (.arityMismatch op.name arity op.arguments.length)
  r.checkFree op.name
  return r.addOperator op

def registerBuiltin (r : Registry) (name : String) (arguments : List ExprType)
    (result : ExprType) : Except RegistryError (Operator × Registry) :=
  match Builtin.find? name with
  | none => .error (.unknownBuiltin name)
  | some b => do
    let op : Operator := ⟨b.name, arguments, result, b.arithmetic, b.apply⟩
    let r ← r.registerOperator b.arity op
    return (op, r)

def weightedSum : Operator where
  name := "wsum"
  arguments := [.weightedTerm, .const]
  result := .weightedSum
  arithmetic := .add
  apply
    | a :: b :: _ => a + b
    | _ => 0

def weightedProduct : Operator where
  name := "wmul"
  arguments := [.const, .var]
  result := .weightedTerm
  arithmetic := .mul
  apply
    | a :: b :: _ => a * b
    | _ => 0

/-- Registers both weighted operators, or neither. -/
def registerWeightedSkeleton (r : Registry) : Except RegistryError Registry := do
  r.checkFree weightedSum.name
  r.checkFree weightedProduct.name
  return (r.addOperator weightedSum).addOperator weightedProduct

def registerHelper (r : Registry) (h : Helper) : Except RegistryError Registry := do
  r.checkFree h.name
  return { r with helpers := r.helpers ++ [h] }

/-- Adds a fixed terminal; a variable is declared by it. -/
def addTerminal (r : Registry) (t : Terminal) : Except RegistryError Registry := do
  r.checkFree t.name
  return { r with terminals := r.terminals ++ [.named t] }

/-- Lets constants be drawn that are fresh each time. Asking again changes nothing. -/
def addEphemeralConstant (r : Registry) : Registry :=
  if r.terminals.contains .ephemeral then r
  else { r with terminals := r.terminals ++ [.ephemeral] }

/-- Mints a variable, declares it and gives its name. -/
def newVariable (r : Registry) (supply : Supply) : String × Registry × Supply :=
  let declare (r : Registry) (name : String) : Registry :=
    { r with terminals := r.terminals ++ [.named (Terminal.var name)] }
  match r.variableCounter with
  | some counter =>
    let (name, counter) := counter.mint
    (name, declare { r with variableCounter := some counter } name, supply)
  | none =>
    let (name, supply) := supply.freshVariable
    (name, declare r name, supply)

def empty (name : String) (rootType : ExprType) : Registry :=
  { name, rootType }

/-- A registry of variable-rooted trees that holds both weighted operators. -/
def weighted (name : String) : Registry :=
  ((empty name .var).addOperator weightedSum).addOperator weightedProduct

end Registry

end SymbolicRegression
