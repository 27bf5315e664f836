import SymbolicRegression.Minimize.Vector

/-!
# Backtracking line search

Along a direction of descent the first step is one, halved until the trial point has a finite value.
From there the step shrinks until the value has decreased enough: to the minimiser of the parabola
through the trial, and from the second shrinking on to the minimiser of the cubic through the last
two trials, but always to between a tenth and a half of the step before.
-/

namespace SymbolicRegression

/-- The settings of a line search. -/
structure LineSearch (K : Type) where
  /-- The part of the decrease along the tangent that must be reached. -/
  sufficientDecrease : K
  /-- A step shrinks at most by this factor. -/
  shrinkMost : K
  /-- A step shrinks at least by this factor. -/
  shrinkLeast : K
  /-- A cubic whose leading coefficient is this small counts as a parabola. -/
  flatness : K
  /-- How many trials may look for a finite value. -/
  halvings : Nat
  /-- How many steps may be tried from there. -/
  trials : Nat

namespace LineSearch

variable {K : Type} [Scalar K]

open Scalar

/-- The minimiser of the parabola with value `phi0` and slope `slope` at zero and value `phi` at
`alpha`. -/
def quadraticStep (alpha phi phi0 slope : K) : Option K :=
  let denominator := two * (phi - phi0 - slope * alpha)
  if !isFinite denominator || eq denominator zero then none
  else finite? (-(slope * alpha * alpha) / denominator)

/-- The coefficients of `t ^ 3` and `t ^ 2` of the cubic with value `phi0` and slope `slope` at zero
that passes through two trials. -/
def cubicCoefficients (alpha₁ phi₁ alpha₂ phi₂ phi0 slope : K) : Option (K × K) :=
  let d₁ := phi₁ - phi0 - slope * alpha₁
  let d₂ := phi₂ - phi0 - slope * alpha₂
  let denominator := alpha₁ * alpha₁ * alpha₂ * alpha₂ * (alpha₂ - alpha₁)
  if !isFinite denominator || eq denominator zero then none
  else
    let a := (alpha₁ * alpha₁ * d₂ - alpha₂ * alpha₂ * d₁) / denominator
    let b := (-(powNat alpha₁ 3) * d₂ + powNat alpha₂ 3 * d₁) / denominator
    if isFinite a && isFinite b then some (a, b) else none

/-- The minimiser of that cubic, or of its parabola where it has no cubic part to speak of. -/
def cubicStep (flatness alpha₁ phi₁ alpha₂ phi₂ phi0 slope : K) : Option K :=
  match cubicCoefficients alpha₁ phi₁ alpha₂ phi₂ phi0 slope with
  | none => none
  | some (a, b) =>
    if le (abs a) flatness then finite? (-slope / (two * b))
    else
      let discriminant := Scalar.max (b * b - three * a * slope) zero
      finite? ((-b + sqrt discriminant) / (three * a))

structure Trial (K : Type) where
  step : K
  value : K
  point : List K

variable {m : Type → Type} [Monad m]

/-- The first trial with a value, at a step halved up to `n - 1` times. -/
def firstTrial (valueAt : List K → m (Option K)) (x s : List K) : Nat → K → m (Option (Trial K))
  | 0, _ => return none
  | n + 1, alpha => do
    let point := Vector.along x alpha s
    match (← valueAt point).bind finite? with
    | some value => return some ⟨alpha, value, point⟩
    | none => firstTrial valueAt x s n (alpha / two)

/-- Has the value of a trial decreased enough? -/
def accepts (ls : LineSearch K) (phi0 slope : K) (t : Trial K) : Bool :=
  le t.value (phi0 + ls.sufficientDecrease * t.step * slope)

/-- The step to try after `t`, where `before` is the trial before it. -/
def nextStep (ls : LineSearch K) (phi0 slope : K) (before : Option (Trial K)) (t : Trial K) : K :=
  let proposal := match before with
    | some b => cubicStep ls.flatness t.step t.value b.step b.value phi0 slope
    | none => quadraticStep t.step t.value phi0 slope
  clamp (ls.shrinkMost * t.step) (ls.shrinkLeast * t.step) (proposal.getD (t.step / two))

/-- Shrinks the step of `t` until a trial is accepted, `n` trials in all. -/
def shrink (ls : LineSearch K) (valueAt : List K → m (Option K)) (x s : List K) (phi0 slope : K) :
    Nat → Option (Trial K) → Trial K → m (Option (Trial K))
  | 0, _, _ => return none
  | n + 1, before, t => do
    if ls.accepts phi0 slope t then return some t
    else
      let alpha := ls.nextStep phi0 slope before t
      if !isFinite alpha || le alpha zero then return none
      else
        let point := Vector.along x alpha s
        match (← valueAt point).bind finite? with
        | some value => shrink ls valueAt x s phi0 slope n (some t) ⟨alpha, value, point⟩
        | none => return none

/-- Searches from `x` along `s`, where the value is `phi0` and the slope `slope`. -/
def search (ls : LineSearch K) (valueAt : List K → m (Option K)) (x s : List K) (phi0 slope : K) :
    m (Option (Trial K)) := do
  match ← firstTrial valueAt x s ls.halvings one with
  | none => return none
  | some t => shrink ls valueAt x s phi0 slope ls.trials none t

end LineSearch

end SymbolicRegression
