import SymbolicRegression.Minimize.LineSearch
import SymbolicRegression.Minimize.Objective

/-!
# Damped Newton descent for one parameter

The curvature is the difference of two gradients. The step divides the gradient by the magnitude of
the curvature, so that it always leads downwards, and a line search shortens it where needed. The
best value seen at the start of a step or at an accepted point is the outcome.
-/

namespace SymbolicRegression

namespace Newton

variable {K : Type} [Scalar K]

open Scalar

/-- The step for a gradient and the gradients on both sides at distance `eps`. A step that does not
lead downwards is replaced by the negated gradient. -/
def stepOf (leastCurvature eps gradient above below : K) : K :=
  let curvature := abs ((above - below) / (two * eps))
  let curvature :=
    if isFinite curvature then Scalar.max curvature leastCurvature else leastCurvature
  let step := -gradient / curvature
  if !isFinite (gradient * step) || le zero (gradient * step) then -gradient else step

structure Best (K : Type) where
  point : K
  value : K

/-- The better of the two; the first one unless the second is smaller. None yet counts as worse than
every number. -/
def better (best : Option (Best K)) (point value : K) : Option (Best K) :=
  match best with
  | some b => if lt value b.value then some ⟨point, value⟩ else some b
  | none => some ⟨point, value⟩

variable {m : Type → Type} [Monad m]

open Minimize

/-- How a run ends: with the best point so far, or with nothing because a gradient failed. -/
inductive Stop (K : Type) where
  | settled (best : Option (Best K))
  | failed

/-- Up to `n` steps from `x`. -/
def steps (settings : RunSettings K) (ls : LineSearch K) (objective : List K → m K) :
    Nat → K → Option (Best K) → Counting m (Stop K)
  | 0, _, best => return .settled best
  | n + 1, x, best => do
    if exhausted settings (← get) then return .settled best
    match ← valueAndGradient settings objective [x] with
    | some (value, [gradient]) =>
      if !isFinite gradient then return .settled best
      let best := better best x value
      if le (abs gradient) settings.gradientTolerance then return .settled best
      let eps := settings.curvatureStep * (abs x + one)
      match ← valueAndGradient settings objective [x + eps] with
      | some (_, [above]) =>
        match ← valueAndGradient settings objective [x - eps] with
        | some (_, [below]) =>
          let s := stepOf settings.leastCurvature eps gradient above below
          let slope := gradient * s
          if !isFinite slope || le zero slope then return .settled best
          match ← ls.search (evaluateWithin settings objective) [x] [s] value slope with
          | some trial =>
            let x := trial.point.headD x
            steps settings ls objective n x (better best x trial.value)
          | none => return .settled best
        | _ => return .failed
      | _ => return .failed
    | _ => return .failed

/-- A run from a starting point; none if a gradient failed or no value was seen. -/
def minimize (settings : RunSettings K) (ls : LineSearch K) (objective : List K → m K) (start : K) :
    Counting m (Option (Outcome K)) := do
  match ← steps settings ls objective settings.iterations start none with
  | .settled (some best) => return some ⟨[best.point], best.value, ← get⟩
  | _ => return none

end Newton

end SymbolicRegression
