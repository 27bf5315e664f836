import SymbolicRegression.Number.Rounding

/-!
# Losses

A loss compares one prediction with one target. The mean of a loss over many of them cleans the
predictions first and may weight the terms. Nothing to average, or weights that sum to zero, is
never a perfect score.
-/

namespace SymbolicRegression

/-- The loss of a prediction, the first argument, against a target. -/
abbrev Loss := Float → Float → Float

namespace Loss

def squared : Loss := fun prediction target =>
  let r := prediction - target
  r * r

def absolute : Loss := fun prediction target => (prediction - target).abs

/-- Quadratic up to a distance of `delta` and linear beyond it. -/
def huber (delta : Float) : Loss := fun prediction target =>
  let r := prediction - target
  if r.abs ≤ delta then 0.5 * r * r else delta * (r.abs - 0.5 * delta)

def logCosh : Loss := fun prediction target => (prediction - target).cosh.log

/-- The loss of every prediction, as far as there are targets. -/
def points (loss : Loss) (predictions targets : List Float) : List Float :=
  List.zipWith loss predictions targets

/-- The mean loss of cleaned predictions; none if the lists differ in length. -/
def mean? (loss : Loss) (predictions targets : List Float) (weights : Option (List Float)) :
    Option Float :=
  if predictions.length ≠ targets.length then none
  else
    let losses := loss.points (predictions.map Number.nanToNum) targets
    match weights with
    | none =>
      if targets.isEmpty then some Number.nonFiniteSentinel
      else some (Scalar.sum losses / Float.ofNat targets.length)
    | some w =>
      if w.length ≠ targets.length then none
      else
        let total := Scalar.sum w
        if total == 0 then some Number.nonFiniteSentinel
        else some (Scalar.sum (List.zipWith (· * ·) w losses) / total)

end Loss

end SymbolicRegression
