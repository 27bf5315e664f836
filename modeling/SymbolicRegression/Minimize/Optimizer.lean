import SymbolicRegression.Minimize.Newton
import SymbolicRegression.Minimize.QuasiNewton
import SymbolicRegression.Random.Stream

/-!
# Optimizers

An optimizer takes an objective and an initial guess and gives parameters and a value. It may
evaluate the objective wherever and as often as it likes, and the objective may have effects, so
it works in every monad. The built-in optimizer descends from the guess and from several jittered
copies of it, and keeps the best point; where nothing improves on the guess, the guess stays.
-/

namespace SymbolicRegression

/-- A way to minimize an objective from an initial guess. -/
structure Optimizer where
  minimize : ∀ {m : Type → Type} [Monad m], (List Float → m Float) → List Float → m (Outcome Float)

/-- The settings of the built-in optimizer. -/
structure Descent where
  /-- Steps of one local run. -/
  iterations : Nat := 100
  /-- Evaluations of one local run; zero means any number. -/
  callLimit : Nat := 0
  restarts : Nat := 2
  seed : UInt64 := 0
  deriving Repr, DecidableEq

namespace Descent

/-- The stopping rules and step sizes of a local run. The gradient step is the cube root and the
curvature step the square root of the distance from one to the next double. -/
def runSettings (d : Descent) : RunSettings Float where
  iterations := d.iterations
  callLimit := d.callLimit
  gradientTolerance := 1e-8
  gradientStep := 6.0554544523933395e-6
  curvatureStep := 1.4901161193847656e-8
  leastCurvature := 1e-12

def lineSearch : LineSearch Float where
  sufficientDecrease := 1e-4
  shrinkMost := 0.1
  shrinkLeast := 0.5
  flatness := 2.220446049250313e-16
  halvings := 53
  trials := 1000

variable {m : Type → Type} [Monad m]

/-- One local run: Newton steps for one parameter, quasi-Newton steps for more. -/
def localRun (d : Descent) (objective : List Float → m Float) (start : List Float) :
    m (Option (Outcome Float)) := do
  let run : Minimize.Counting m (Option (Outcome Float)) := match start with
    | [x] => Newton.minimize d.runSettings lineSearch objective x
    | _ => QuasiNewton.minimize d.runSettings lineSearch objective start
  let (outcome, _) ← run.run 0
  return outcome

/-- Scales and shifts every parameter by normal draws. -/
def jitter : List Float → Stream → List Float × Stream
  | [], s => ([], s)
  | v :: vs, s =>
    let scale := s.normal
    let shift := scale.2.normal
    let others := jitter vs shift.2
    ((v * (1 + 0.5 * scale.1) + 0.1 * shift.1) :: others.1, others.2)

/-- Takes a local run into account: its evaluations are counted, and its point is kept if its value
is smaller. -/
def keep (best : Outcome Float) (run : Option (Outcome Float)) : Outcome Float :=
  match run with
  | none => best
  | some r =>
    let calls := best.calls + r.calls
    if r.value < best.value then { r with calls } else { best with calls }

/-- Up to `n` local runs from jittered copies of the guess. -/
def restartFrom (d : Descent) (objective : List Float → m Float) (guess : List Float) :
    Nat → Stream → Outcome Float → m (Outcome Float)
  | 0, _, best => return best
  | n + 1, s, best => do
    let copy := jitter guess s
    let run ← d.localRun objective copy.1
    restartFrom d objective guess n copy.2 (keep best run)

/-- Descends from the guess and from jittered copies of it. An undefined value at the guess counts
as infinite while others are compared with it; if nothing finite is found, it is reported as it
is. -/
def minimize (d : Descent) (objective : List Float → m Float) (guess : List Float) :
    m (Outcome Float) := do
  let baseline ← objective guess
  if guess.isEmpty then return ⟨guess, baseline, 1⟩
  let infinity := Float.ofBits 0x7FF0000000000000
  let first : Outcome Float := ⟨guess, if baseline.isNaN then infinity else baseline, 1⟩
  let run ← d.localRun objective guess
  let best ← d.restartFrom objective guess d.restarts (Stream.ofSeed d.seed) (keep first run)
  return if best.value.isFinite then best else { best with value := baseline }

def optimizer (d : Descent) : Optimizer where
  minimize objective guess := d.minimize objective guess

end Descent

namespace Optimizer

/-- Keeps the guess and evaluates it, without counting that. -/
def identity : Optimizer where
  minimize objective guess := do
    let value ← objective guess
    return ⟨guess, value, 0⟩

/-- Gives the same answer for every objective and never evaluates it. -/
def fixed (params : List Float) (value : Float) : Optimizer where
  minimize _ _ := pure ⟨params, value, 0⟩

end Optimizer

end SymbolicRegression
