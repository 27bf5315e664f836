import SymbolicRegression.Minimize.Vector

/-!
# Evaluating an objective

An objective is a function of the parameters whose values may come with effects, so it runs in any
monad. A local run counts its evaluations and can be limited to a number of them. Only finite
values are of use. Gradients are central differences: two evaluations per parameter.
-/

namespace SymbolicRegression

/-- The outcome of a minimization: the parameters, the value there, and how many evaluations were
counted. -/
structure Outcome (K : Type) where
  params : List K
  value : K
  calls : Nat

/-- The stopping rules and the step sizes of a local run. -/
structure RunSettings (K : Type) where
  iterations : Nat
  /-- How many evaluations a run may start; zero means any number. -/
  callLimit : Nat
  /-- A gradient this small ends the run. -/
  gradientTolerance : K
  /-- The relative step of a gradient difference. -/
  gradientStep : K
  /-- The relative step of a curvature difference. -/
  curvatureStep : K
  /-- The least curvature that a Newton step is divided by. -/
  leastCurvature : K

namespace Minimize

variable {K : Type} [Scalar K] {m : Type → Type} [Monad m]

/-- A computation that counts evaluations. -/
abbrev Counting (m : Type → Type) := StateT Nat m

/-- May no further evaluation be started? -/
def exhausted (settings : RunSettings K) (calls : Nat) : Bool :=
  settings.callLimit != 0 && settings.callLimit ≤ calls

/-- One counted evaluation; none if its value is not finite. -/
def evaluate (objective : List K → m K) (x : List K) : Counting m (Option K) := do
  modify (· + 1)
  return Scalar.finite? (← objective x)

/-- The differences for the parameters `after`, where `before` holds the ones in front of them. None
as soon as a neighbour has no finite value. -/
def gradientFrom (settings : RunSettings K) (objective : List K → m K) (before : List K) :
    List K → Counting m (Option (List K))
  | [] => return some []
  | xi :: after => do
    let h := settings.gradientStep * (Scalar.abs xi + Scalar.one)
    let up ← evaluate objective (before ++ (xi + h) :: after)
    let down ← evaluate objective (before ++ (xi - h) :: after)
    match up, down with
    | some p, some q =>
      let others ← gradientFrom settings objective (before ++ [xi]) after
      return others.map ((p - q) / (Scalar.two * h) :: ·)
    | _, _ => return none

/-- The value and the gradient at a point; none if either is not finite. -/
def valueAndGradient (settings : RunSettings K) (objective : List K → m K) (x : List K) :
    Counting m (Option (K × List K)) := do
  match ← evaluate objective x with
  | none => return none
  | some value =>
    let gradient ← gradientFrom settings objective [] x
    return gradient.map fun g => (value, g)

/-- An evaluation that is only started within the limit. -/
def evaluateWithin (settings : RunSettings K) (objective : List K → m K) (x : List K) :
    Counting m (Option K) := do
  if exhausted settings (← get) then return none
  else evaluate objective x

end Minimize

end SymbolicRegression
