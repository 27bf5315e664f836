import SymbolicRegression.Node.Tree
import SymbolicRegression.Random.Stream
import SymbolicRegression.Registry

/-!
# Generating trees

A tree grows from an obligation: produce a value of this type at this depth. A policy decides
whether growth stops there. If it does, the obligation is closed by a terminal or by the fixed
weighted shape of its type; otherwise an operator is drawn, and each of its arguments becomes an
obligation one level deeper, from left to right. Draws consume a random stream and mint names; both
are kept when an attempt fails.
-/

namespace SymbolicRegression

/-- What a registry was asked for in vain. -/
inductive Category where
  | operator
  | terminal
  deriving Repr, DecidableEq

def Category.name : Category → String
  | operator => "primitive"
  | terminal => "terminal"

inductive GenerationError where
  /-- Nothing of that category can fill an obligation of that type. -/
  | exhausted (category : Category) (type : ExprType)
  | invalidHeights (low high : Nat)
  deriving Repr, DecidableEq

def GenerationError.message : GenerationError → String
  | exhausted category type => s!"no {category.name} of type {type.name} is registered"
  | invalidHeights low high => s!"min_height {low} exceeds max_height {high}"

/-- Decides at an obligation, given the target height, the depth and the type, whether growth stops
there. The decision may draw from the stream. -/
structure Policy where
  stop : Nat → Nat → ExprType → Stream → Bool × Stream

namespace Policy

/-- Stops when closing the obligation one level later would pass the target height. -/
def full : Policy where
  stop height depth type s := (height < depth + type.reach, s)

/-- Stops where the full policy does, and below the root also with the given probability. -/
def grow (terminalRatio : Float) : Policy where
  stop height depth type s :=
    if height < depth + type.reach then (true, s)
    else if depth = 0 then (false, s)
    else
      let (x, s) := s.unit
      (x < terminalRatio, s)

/-- Stops by a rule that draws nothing. -/
def ofRule (rule : Nat → Nat → ExprType → Bool) : Policy where
  stop height depth type s := (rule height depth type, s)

end Policy

/-- What generation consumes: random draws and names. -/
structure Sources where
  stream : Stream
  supply : Supply
  deriving Repr, DecidableEq

/-- A computation that consumes sources and may fail. It has no outcome at all when a policy lets
a tree grow beyond every bound, or when there is no room for what was asked for. -/
abbrev Draw := ExceptT GenerationError (StateT Sources Option)

namespace Draw

def random {α : Type} (f : Stream → α × Stream) : Draw α := fun s =>
  let (a, stream) := f s.stream
  some (.ok a, { s with stream })

def supplied {α : Type} (f : Supply → α × Supply) : Draw α := fun s =>
  let (a, supply) := f s.supply
  some (.ok a, { s with supply })

/-- The computation without any outcome. -/
def endless {α : Type} : Draw α := fun _ => none

def freshConstant : Draw Terminal :=
  supplied fun supply =>
    let (name, supply) := supply.freshConstant
    (Terminal.const name, supply)

/-- A terminal that can stand in for `type`. -/
def terminal (registry : Registry) (type : ExprType) : Draw Terminal := do
  match ← random (Stream.choose? (registry.terminalsFor type)) with
  | some spec => supplied spec.instantiate
  | none => throw (.exhausted .terminal type)

/-- An operator whose result can stand in for `type`. -/
def operator (registry : Registry) (type : ExprType) : Draw Operator := do
  match ← random (Stream.choose? (registry.operatorsReturning type)) with
  | some op => return op
  | none => throw (.exhausted .operator type)

/-- The operator with that signature, which a weighted shape is built with. -/
def shape (registry : Registry) (arguments : List ExprType) (result : ExprType) :
    Draw Operator :=
  match registry.operatorWithSignature? arguments result with
  | some op => return op
  | none => throw (.exhausted .operator result)

/-- The shape `c * x` with a fresh constant and a drawn variable. -/
def weightedTerm (registry : Registry) : Draw Tree := do
  let product ← shape registry [.const, .var] .weightedTerm
  let x ← terminal registry .var
  let c ← freshConstant
  return .node (.operator product) [.leaf c, .leaf x]

/-- The shape `c * x + c` with fresh constants and a drawn variable. -/
def weightedSum (registry : Registry) : Draw Tree := do
  let sum ← shape registry [.weightedTerm, .const] .weightedSum
  let product ← weightedTerm registry
  let c ← freshConstant
  return .node (.operator sum) [product, .leaf c]

/-- Closes an obligation without opening new ones. -/
def close (registry : Registry) (type : ExprType) : Draw Tree :=
  match type with
  | .weightedSum => weightedSum registry
  | .weightedTerm => weightedTerm registry
  | .const => return .leaf (← freshConstant)
  | _ => return .leaf (← terminal registry type)

/-- Fills an obligation at `depth`; `levels` bounds how many more levels may be opened. A constant
stays a single leaf, and a variable may be one by a fair choice. -/
def fill (registry : Registry) (policy : Policy) (height : Nat) :
    (levels depth : Nat) → ExprType → Draw Tree
  | 0, _, _ => endless
  | levels + 1, depth, type => do
    if ← random (policy.stop height depth type) then
      close registry type
    else if type = .const then
      return .leaf (← freshConstant)
    else if ← (if type = .var then random Stream.coin else pure false) then
      return .leaf (← terminal registry type)
    else
      let op ← operator registry type
      let children ← op.arguments.mapM fun argument =>
        fill registry policy height levels (depth + 1) argument
      return .node (.operator op) children

end Draw

/-- How many levels a tree may have above its target height before its policy counts as endless. -/
def spareLevels : Nat := Nat.pow 2 64

/-- Draws a target height between `low` and `high`, both included, and grows one tree of type
`root`, which is the registry's own type if none is asked for. -/
def generate (registry : Registry) (low high : Nat) (policy : Policy) (root : Option ExprType) :
    Draw Tree := do
  if high < low then throw (.invalidHeights low high)
  let height ← Draw.random (Stream.between low high)
  Draw.fill registry policy height (height + spareLevels) 0 (root.getD registry.rootType)

end SymbolicRegression
