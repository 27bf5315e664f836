import SymbolicRegression.Csv.Writing
import SymbolicRegression.Json.Text
import SymbolicRegression.Search
import SymbolicRegression.Text.Blank

/-!
# Reports

A report shows the best candidates of a search with their formulas, in which the fitted constants
are rounded. It is written as a table for reading, as comma-separated values or as JSON.
-/

namespace SymbolicRegression

structure ReportRow where
  /-- The place among all candidates, counted from one. -/
  rank : Nat
  fitness : Float
  tree : String
  formula : String
  latex : String
  parameters : Parameters

/-- The best candidates of a search for a target. -/
structure Report where
  target : String
  /-- The variables, each with the column it stands for. -/
  legend : List (String × String)
  rows : List ReportRow

namespace ReportRow

/-- The row of a candidate. Where its formula cannot be expanded, its tree is shown instead. -/
def ofCandidate (registry : Registry) (decimals : Nat) (rank : Nat) (i : Individual)
    (fitness : Float) : ReportRow :=
  let (formula, latex) := match i.formula registry (some decimals) with
    | .ok f => (f.text, f.latex)
    | .error _ => (i.text, "")
  { rank, fitness, tree := i.text, formula, latex, parameters := i.parameters }

def parametersJson (row : ReportRow) : Json :=
  .object (row.parameters.map fun (name, value) => (name, Json.ofFloat value))

def line (row : ReportRow) : String :=
  Text.padRight 6 (toString row.rank) ++ " "
    ++ Text.padRight 14 (Number.scientificPlaces 6 row.fitness) ++ " " ++ row.formula ++ "\n"

def fields (target : String) (row : ReportRow) : List String :=
  [target, toString row.rank, Number.plain row.fitness, row.tree, row.formula, row.latex,
    row.parametersJson.compact]

def json (row : ReportRow) : Json :=
  .object [("rank", Json.ofNat row.rank), ("fitness", Json.ofFloat row.fitness),
    ("tree", .string row.tree), ("formula", .string row.formula), ("latex", .string row.latex),
    ("parameters", row.parametersJson)]

end ReportRow

namespace Report

/-- The rows of the first `count` candidates. -/
def rowsOf (registry : Registry) (decimals count : Nat) (ranked : List (Individual × Float)) :
    List ReportRow :=
  (ranked.take count).zipIdx.map fun ((i, fitness), n) =>
    ReportRow.ofCandidate registry decimals (n + 1) i fitness

def table (r : Report) : String :=
  let legend := ", ".intercalate (r.legend.map fun (name, column) => name ++ "=" ++ column)
  "target: " ++ r.target ++ "\n" ++ "variables: " ++ legend ++ "\n"
    ++ Text.padRight 6 "rank" ++ " " ++ Text.padRight 14 "fitness" ++ " formula\n"
    ++ String.join (r.rows.map ReportRow.line) ++ "\n"

def fieldNames : List String :=
  ["target", "rank", "fitness", "tree", "formula", "latex", "parameters"]

def csv (r : Report) : String :=
  String.join ((fieldNames :: r.rows.map (ReportRow.fields r.target)).map Csv.line)

def json (r : Report) : Json :=
  .object [("target", .string r.target), ("candidates", .array (r.rows.map ReportRow.json))]

end Report

end SymbolicRegression
