import SymbolicRegression.Minimize.LineSearch
import SymbolicRegression.Minimize.Objective

/-!
# Quasi-Newton descent

The method of Broyden, Fletcher, Goldfarb and Shanno keeps an estimate of the inverse Hessian. Each
step searches along the estimate applied to the negated gradient, and the difference of two
gradients corrects the estimate, which stays symmetric and positive definite. When rounding has
spoilt the estimate, it starts again from the identity.
-/

namespace SymbolicRegression

namespace QuasiNewton

variable {K : Type} [Scalar K]

open Scalar

/-- Corrects the inverse-Hessian estimate by a step `dx` that changed the gradient by `dg`. Nothing
changes unless the step and the change agree in direction. -/
def update (inverse : List (List K)) (dx dg : List K) : List (List K) :=
  let agreement := Vector.dot dx dg
  if lt zero agreement && isFinite agreement then
    let u := Vector.apply inverse dg
    let change := Vector.dot dg u
    if isFinite change then
      let c₁ := (agreement + change) / (agreement * agreement)
      let c₂ := one / agreement
      List.zipWith (fun row (dxi, ui) =>
        List.zipWith (fun h (dxj, uj) => h + (c₁ * dxi * dxj - c₂ * (ui * dxj + dxi * uj)))
          row (dx.zip u)) inverse (dx.zip u)
    else inverse
  else inverse

/-- Is the number below zero, and finite? -/
def descends (slope : K) : Bool :=
  isFinite slope && !le zero slope

/-- Where a run stands: the point, its value and gradient, and the inverse-Hessian estimate. -/
structure State (K : Type) where
  point : List K
  value : K
  gradient : List K
  inverse : List (List K)

/-- The direction of the next step, its slope, and the estimate that it was made with: the given one
if it leads downwards, and else the identity. None if neither does. -/
def direction? (state : State K) : Option (List K × K × List (List K)) :=
  let g := state.gradient
  let s := Vector.negate (Vector.apply state.inverse g)
  let slope := Vector.dot g s
  if descends slope then some (s, slope, state.inverse)
  else
    let s := Vector.negate g
    let slope := Vector.dot g s
    if descends slope then some (s, slope, Vector.identity g.length) else none

variable {m : Type → Type} [Monad m]

open Minimize

/-- One step; none when the run ends at the given state. -/
def step (settings : RunSettings K) (ls : LineSearch K) (objective : List K → m K)
    (state : State K) : Counting m (Option (State K)) := do
  if exhausted settings (← get) then return none
  let size := Vector.infNorm state.gradient
  if !isFinite size || le size settings.gradientTolerance then return none
  match direction? state with
  | none => return none
  | some (s, slope, inverse) =>
    match ← ls.search (evaluateWithin settings objective) state.point s state.value slope with
    | none => return none
    | some trial =>
      match ← valueAndGradient settings objective trial.point with
      | none => return none
      | some (value, gradient) =>
        let dx := Vector.sub trial.point state.point
        let dg := Vector.sub gradient state.gradient
        return some ⟨trial.point, value, gradient, update inverse dx dg⟩

/-- Up to `n` steps. -/
def steps (settings : RunSettings K) (ls : LineSearch K) (objective : List K → m K) :
    Nat → State K → Counting m (State K)
  | 0, state => return state
  | n + 1, state => do
    match ← step settings ls objective state with
    | none => return state
    | some next => steps settings ls objective n next

/-- A run from a starting point; none if the value or the gradient there is not finite. -/
def minimize (settings : RunSettings K) (ls : LineSearch K) (objective : List K → m K)
    (start : List K) : Counting m (Option (Outcome K)) := do
  match ← valueAndGradient settings objective start with
  | none => return none
  | some (value, gradient) =>
    let state ← steps settings ls objective settings.iterations
      ⟨start, value, gradient, Vector.identity start.length⟩
    return some ⟨state.point, state.value, ← get⟩

end QuasiNewton

end SymbolicRegression
