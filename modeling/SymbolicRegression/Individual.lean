import SymbolicRegression.Node.Text
import SymbolicRegression.Polynomial.Formula
import SymbolicRegression.Program.Compile

/-!
# Individuals

An individual is a candidate of the search: the preorder of its tree and the constants that were
last fitted for it. The constants are replaced as a whole by every evaluation; the nodes may be
edited in between, and a name that survives keeps its value as a warm start.
-/

namespace SymbolicRegression

/-- Values by name, in increasing order of the names, each name once. -/
abbrev Parameters := List (String × Float)

namespace Parameters

def value? (ps : Parameters) (name : String) : Option Float :=
  (ps.find? fun (n, _) => n == name).map Prod.snd

def insert (name : String) (value : Float) : Parameters → Parameters
  | [] => [(name, value)]
  | (n, v) :: ps =>
    if name < n then (name, value) :: (n, v) :: ps
    else if name = n then (name, value) :: ps
    else (n, v) :: insert name value ps

/-- The values of a list of names; the last value of a name counts. -/
def ofList (pairs : List (String × Float)) : Parameters :=
  pairs.foldl (fun ps (name, value) => insert name value ps) []

end Parameters

/-- A candidate: its nodes in preorder and its fitted constants. -/
structure Individual where
  nodes : List Node
  parameters : Parameters := []

namespace Individual

def text (i : Individual) : String :=
  Preorder.text i.nodes

/-- The distinct constant names, in the order of first appearance. -/
def constantNames (i : Individual) : List String :=
  Preorder.constantNames i.nodes

/-- The formula of the individual. With `decimals?`, every constant is replaced by its fitted value
rounded to so many places, zero if it was never fitted. -/
def formula (i : Individual) (registry : Registry) (decimals? : Option Nat) :
    Except FormulaError Formula :=
  Formula.ofText i.text registry <| decimals?.map fun decimals name =>
    Number.roundTo ((i.parameters.value? name).getD 0) decimals

def compile (i : Individual) (registry : Registry) : Except CompileError Program :=
  if Preorder.isValid i.nodes then SymbolicRegression.compile i.text registry
  else .error .invalidPreorder

/-- The value that each constant of the program had in the last fit, zero where it had none. -/
def guess (i : Individual) (program : Program) : List Float :=
  program.constantNames.map fun name => (i.parameters.value? name).getD 0

end Individual

end SymbolicRegression
