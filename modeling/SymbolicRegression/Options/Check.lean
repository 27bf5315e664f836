import SymbolicRegression.Options

/-!
# Options that make sense

Some options are of the right kind and still make no search: an empty batch, an empty range of
heights, a ratio outside of its range. The first such option is reported.
-/

namespace SymbolicRegression

inductive OptionsError where
  | noCandidates
  | heights (low high : Nat)
  | blocks
  | terminalRatio
  | trainWeight
  | noneShown
  | complexityPenalty
  deriving Repr, DecidableEq

namespace OptionsError

def message : OptionsError → String
  | noCandidates => "n_candidates must be > 0"
  | heights low high => s!"min_height ({low}) must be <= max_height ({high})"
  | blocks => "n_split must be >= 2"
  | terminalRatio => "terminal_ratio must be in [0, 1]"
  | trainWeight => "train_weight must be >= 0"
  | noneShown => "topn must be > 0"
  | complexityPenalty => "complexity_penalty must be a finite value >= 0"

end OptionsError

def Options.check (o : Options) : Except OptionsError Unit := do
  if o.candidates = 0 then throw .noCandidates
  if o.maxHeight < o.minHeight then throw (.heights o.minHeight o.maxHeight)
  if o.blocks < 2 then throw .blocks
  if ¬ (0 ≤ o.terminalRatio ∧ o.terminalRatio ≤ 1) then throw .terminalRatio
  if ¬ 0 ≤ o.trainWeight then throw .trainWeight
  if o.shown = 0 then throw .noneShown
  if let some penalty := o.complexityPenalty then
    if ¬ (penalty.isFinite ∧ 0 ≤ penalty) then throw .complexityPenalty

end SymbolicRegression
