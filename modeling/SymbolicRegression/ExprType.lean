/-!
# Production types

The types of the expression grammar form a fixed tree: `any` at the root, constants and variables
below it, and two weighted shapes below the variables. A value of a type may stand wherever one of
its ancestors is asked for.
-/

namespace SymbolicRegression

/-- A production type of the expression grammar. -/
inductive ExprType where
  /-- Any production is acceptable. -/
  | any
  /-- A free numeric constant. -/
  | const
  /-- A value that depends on the input variables. -/
  | var
  /-- The shape `c * x`. -/
  | weightedTerm
  /-- The shape `c * x + c`. -/
  | weightedSum
  deriving Repr, DecidableEq

namespace ExprType

/-- Every type, in the order in which catalogues list them. -/
def all : List ExprType := [any, const, var, weightedTerm, weightedSum]

def parent? : ExprType → Option ExprType
  | any => none
  | const => some any
  | var => some any
  | weightedTerm => some var
  | weightedSum => some var

/-- The type itself, its parent, and so on up to the root. -/
def ancestors : ExprType → List ExprType
  | any => [any]
  | const => [const, any]
  | var => [var, any]
  | weightedTerm => [weightedTerm, var, any]
  | weightedSum => [weightedSum, var, any]

/-- May a value of type `t` stand where one of type `u` is asked for? -/
def isSubtype (t u : ExprType) : Bool :=
  t.ancestors.contains u

/-- How many tree levels the generator emits when it closes an obligation of this type. -/
def reach : ExprType → Nat
  | weightedSum => 3
  | weightedTerm => 2
  | _ => 1

def name : ExprType → String
  | any => "Any"
  | const => "Constant"
  | var => "Variable"
  | weightedTerm => "WeightedTerm"
  | weightedSum => "WeightedSum"

def ofName? (s : String) : Option ExprType :=
  all.find? fun t => t.name == s

/-- The place of the type in the list of all types. -/
def index : ExprType → Nat
  | any => 0
  | const => 1
  | var => 2
  | weightedTerm => 3
  | weightedSum => 4

end ExprType

end SymbolicRegression
