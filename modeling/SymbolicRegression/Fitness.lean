import SymbolicRegression.Individual
import SymbolicRegression.Metric.Basic
import SymbolicRegression.Minimize.Optimizer

/-!
# Fitness

An individual is evaluated in two levels: its constants are fitted by an optimizer, and the fitted
program is scored. What cannot be compiled scores the sentinel and keeps its constants; otherwise
all constants are replaced by the fitted ones. An evaluation has no outcome only where the metric
has no score.
-/

namespace SymbolicRegression

/-- A program with fitted constants and the objective value there. -/
structure Fitted where
  program : Program
  params : List Float
  value : Float

/-- Minimizes a metric over the constants of a program. An optimizer that gives the wrong number of
constants is not believed: the guess stays, with the sentinel as its value. -/
def Program.fit (program : Program) (guess : List Float) (optimizer : Optimizer) (metric : Metric)
    (data : Dataset) : Option Fitted := do
  let outcome ← optimizer.minimize (fun params => metric params program data) guess
  if outcome.params.length ≠ guess.length then
    return ⟨program, guess, Number.nonFiniteSentinel⟩
  return ⟨program, outcome.params, Number.sanitize outcome.value⟩

namespace Fitted

/-- The score of the fitted constants by a metric, perhaps on other data. -/
def rescore (f : Fitted) (metric : Metric) (data : Dataset) : Option Float :=
  (metric f.params f.program data).map Number.sanitize

def parameters (f : Fitted) : Parameters :=
  Parameters.ofList (f.program.constantNames.zip f.params)

/-- The individual with the fitted constants instead of its own. -/
def apply (f : Fitted) (i : Individual) : Individual :=
  { i with parameters := f.parameters }

end Fitted

/-- A way to evaluate individuals: the fitness, and the individual with the constants it left. -/
structure Evaluator where
  evaluate : Individual → Option (Float × Individual)

namespace Evaluator

/-- Compiles, fits and scores: `fitOn` is the data to fit on, and `fitness` turns the fit into the
fitness. -/
def ofScore (registry : Registry) (metric : Metric) (optimizer : Optimizer) (fitOn : Dataset)
    (fitness : Fitted → Option Float) : Evaluator where
  evaluate i :=
    match i.compile registry with
    | .error _ => some (Number.nonFiniteSentinel, i)
    | .ok program => do
      let fitted ← program.fit (i.guess program) optimizer metric fitOn
      let score ← fitness fitted
      return (Number.sanitize score, fitted.apply i)

/-- Fits and scores on the same data; the fitness is the optimizer's value. -/
def direct (registry : Registry) (data : Dataset) (metric : Metric) (optimizer : Optimizer) :
    Evaluator :=
  ofScore registry metric optimizer data fun fitted => some fitted.value

/-- How the held-out score is adjusted. -/
structure Adjustment where
  /-- The weight of the training score; zero leaves it out altogether. -/
  trainWeight : Float := 0
  /-- Added once for each constant. -/
  penalty : Option Float := none

/-- The held-out score with the weighted training score and the penalty for constants. -/
def Adjustment.apply (a : Adjustment) (heldOut train : Float) (constants : Nat) : Float :=
  let fitness := if a.trainWeight != 0 then heldOut + a.trainWeight * train else heldOut
  match a.penalty with
  | some penalty => fitness + penalty * Float.ofNat constants
  | none => fitness

/-- Fits on the training part and scores on the held-out part. -/
def holdout (registry : Registry) (train test : Dataset) (metric : Metric) (optimizer : Optimizer)
    (adjustment : Adjustment) : Evaluator :=
  ofScore registry metric optimizer train fun fitted => do
    let heldOut ← fitted.rescore metric test
    return adjustment.apply heldOut fitted.value fitted.program.constantNames.length

def evaluateAll (e : Evaluator) (individuals : List Individual) :
    Option (List (Float × Individual)) :=
  individuals.mapM e.evaluate

end Evaluator

end SymbolicRegression
