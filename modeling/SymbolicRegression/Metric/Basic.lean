import SymbolicRegression.Dataset
import SymbolicRegression.Json.Text
import SymbolicRegression.Metric.Loss
import SymbolicRegression.Program
import SymbolicRegression.Text.Blank

/-!
# Metrics

A metric scores a program with fixed constants on a data set; lower is better. The built-in metrics
give a finite score in every case, so that neither the optimizer nor the ranking meets an undefined
one. A metric made elsewhere may have no score at all, where it relies on shapes that do not hold.
-/

namespace SymbolicRegression

/-- Scores the constants of a program on a data set. -/
abbrev Metric := List Float → Program → Dataset → Option Float

/-- The prediction for every sample; none if the number of constants or of features is wrong. -/
def predictions? (constants : List Float) (program : Program) (data : Dataset) :
    Option (List Float) :=
  program.predict? constants data.features.columns data.features.rows

namespace Metric

/-- The mean of a loss. Shapes that do not fit score the sentinel. -/
def mean (loss : Loss) : Metric := fun constants program data =>
  match predictions? constants program data with
  | none => some Number.nonFiniteSentinel
  | some predictions =>
    (loss.mean? predictions data.target data.weights).map Number.sanitize

def rootMeanSquare : Metric := fun constants program data =>
  (mean Loss.squared constants program data).map fun mse =>
    if mse == Number.nonFiniteSentinel then mse else Number.sanitize mse.sqrt

/-- The sum of several metrics, each times its weight. -/
def weightedSum (parts : List (Metric × Float)) : Metric := fun constants program data => do
  let scores ← parts.mapM fun (metric, weight) =>
    (metric constants program data).map (weight * ·)
  return Number.sanitize (Scalar.sum scores)

/-- The largest distance from a target; no score if the shapes do not fit. -/
def greatestError : Metric := fun constants program data =>
  (predictions? constants program data).map fun predictions =>
    (Loss.absolute.points predictions data.target).foldl Scalar.max 0

end Metric

inductive MetricKind where
  | mse
  | mae
  | rmse
  | huber (delta : Float)
  | logCosh

namespace MetricKind

/-- The metric of that name, in any case and with white space around it. -/
def ofName? (s : String) : Option MetricKind :=
  match Text.lower (Text.trim s) with
  | "mse" => some mse
  | "mae" => some mae
  | "rmse" => some rmse
  | "huber" => some (huber 1)
  | "logcosh" => some logCosh
  | "log-cosh" => some logCosh
  | "log_cosh" => some logCosh
  | _ => none

def name : MetricKind → String
  | mse => "Mse"
  | mae => "Mae"
  | rmse => "Rmse"
  | huber _ => "Huber"
  | logCosh => "LogCosh"

def details : MetricKind → String
  | huber delta => "Huber \x7b delta: " ++ (Json.ofFloat delta).compact ++ " \x7d"
  | kind => kind.name

def metric : MetricKind → Metric
  | mse => Metric.mean Loss.squared
  | mae => Metric.mean Loss.absolute
  | rmse => Metric.rootMeanSquare
  | huber delta => Metric.mean (Loss.huber delta)
  | logCosh => Metric.mean Loss.logCosh

end MetricKind

end SymbolicRegression
