import SymbolicRegression.CommandLine.Arguments
import SymbolicRegression.CommandLine.Failure
import SymbolicRegression.CommandLine.Files
import SymbolicRegression.Report

/-!
# Running a command

A command lists the operators, or it loads a table, selects a data set, searches, shows the best
candidates and writes them to a file. Everything up to the report is a function of the arguments and
of the bytes of the input.
-/

namespace SymbolicRegression

namespace CommandLine

/-- What a command leaves behind, its files apart. -/
structure Outcome where
  exitCode : Nat
  output : String := ""
  errors : String := ""
  deriving Repr, DecidableEq

/-- The names of the operators by their number of arguments, in alphabetical order. -/
def operatorList : String :=
  String.join ([1, 2].map fun arity =>
    let names := ((Builtin.all.filter fun b => b.arity == arity).map (·.name)).mergeSort
      fun a b => a ≤ b
    s!"arity {arity}:\n" ++ String.join (names.map fun name => s!"  {name}\n") ++ "\n")

def defaultOperators : List String :=
  ["add", "sub", "mul", "div"]

/-- The name of an operator that may be given by its sign. -/
def operatorName : String → String
  | "+" => "add"
  | "-" => "sub"
  | "*" => "mul"
  | "/" => "div"
  | "^" => "pow"
  | "**" => "pow"
  | name => name

def registerOperator (registry : Registry) (raw : String) : Except OperatorFailure Registry :=
  match Builtin.find? (operatorName raw) with
  | none => .error (.unknown raw)
  | some b =>
    match registry.registerBuiltin b.name (List.replicate b.arity .var) .var with
    | .ok (_, registry) => .ok registry
    | .error e => .error (.refused raw e)

/-- Mints `n` variables and gives their names. -/
def mintVariables : (n : Nat) → Registry → Supply → List String × Registry × Supply
  | 0, registry, supply => ([], registry, supply)
  | n + 1, registry, supply =>
    let (name, registry, supply) := registry.newVariable supply
    let (names, registry, supply) := mintVariables n registry supply
    (name :: names, registry, supply)

namespace Arguments

/-- The operators to register, as they were given. -/
def operatorNames (a : Arguments) : List String :=
  match a.operators with
  | none => defaultOperators
  | some names => (names.map Text.trim).filter fun name => !name.isEmpty

/-- The registry of a search with its operators. Fresh constants may be leaves only where the root
may be of any type. -/
def registry (a : Arguments) : Except OperatorFailure Registry := do
  let names := a.operatorNames
  if names.isEmpty then throw .noOperators
  let start := { Registry.weighted "hybrid-sr" with rootType := a.rootType }
  let r ← names.foldlM registerOperator start
  return if a.rootType = .any then r.addEphemeralConstant else r

/-- The column that an option selects. -/
def column (a : Arguments) (table : Table) (what text : String) :
    Except SelectFailure (Fin table.width) := do
  let selector ← (Selector.read a.oneBased text).mapError (.badSelector what)
  (table.resolve selector).mapError (.noColumn what)

/-- The columns that the features are selected by. All selectors are read before the first of them
is looked up. -/
def featureColumns (a : Arguments) (table : Table) (texts : List String) :
    Except SelectFailure (List (Fin table.width)) := do
  let what := "--x selectors"
  let selectors ← texts.mapM fun text =>
    (Selector.read a.oneBased text).mapError (.badSelector what)
  selectors.mapM fun selector => (table.resolve selector).mapError (.noColumn what)

end Arguments

namespace Request

/-- The columns of the search: the target is looked up first, then the weights and the features. -/
def select (r : Request) (table : Table) : Except SelectFailure (Selection table.width) := do
  let target ← r.arguments.column table "--y" r.target
  let weights ← r.arguments.weights.mapM (r.arguments.column table "--weights")
  let features ← match r.arguments.features with
    | some texts => r.arguments.featureColumns table texts
    | none => pure (Selection.otherColumns target weights)
  let selection : Selection table.width := ⟨features, target, weights⟩
  selection.check.mapError .badSelection
  return selection

/-- Reads the input and makes a table of it. -/
def load {m : Type → Type} [Monad m] (r : Request) (files : Files m) :
    ExceptT LoadFailure m Table := do
  let kind := extension r.data
  if kind ≠ "csv" ∧ kind ≠ "txt" then throw (.unsupported kind)
  match ← files.read r.data with
  | .error (.notOpened reason) => throw (.notOpened r.data reason)
  | .error (.notRead reason) =>
    throw (if r.arguments.noHeader then .recordNotRead 1 reason else .headersNotRead r.data reason)
  | .ok bytes =>
    match Table.ofBytes (!r.arguments.noHeader) bytes with
    | .ok table => return table
    | .error e => throw (.ofTableError r.data e)

/-- Searches a table. The columns are selected first, the operators are registered next, and the
options are checked last. -/
def report (r : Request) (table : Table) : Except Failure Report := do
  let selection ← (r.select table).mapError .select
  let data := table.dataset selection
  let registry ← r.arguments.registry.mapError .operators
  let (names, registry, supply) := mintVariables data.features.columns registry {}
  let options := r.arguments.options
  options.check.mapError .options
  match SymbolicRegression.search registry data options supply with
  | none => throw .noOutcome
  | some (.error e) => throw (.search e)
  | some (.ok result) =>
    return {
      target := table.header selection.target
      legend := names.zip data.variableNames
      rows := Report.rowsOf registry options.decimals options.shown result.ranked }

/-- The format of the output: the one that was asked for, else the one that the name of the file
tells. -/
def outputFormat (r : Request) (path : String) : Format :=
  r.arguments.format.getD (if extension path = "json" then .json else .csv)

def write {m : Type → Type} [Monad m] (r : Request) (files : Files m) (path : String)
    (report : Report) : ExceptT OutputFailure m Unit := do
  let text ← match r.outputFormat path with
    | .table => throw .tableFormat
    | .csv => pure report.csv
    | .json => pure report.json.pretty
  match ← files.write path text with
  | .ok () => return
  | .error (.notCreated reason) => throw (.notCreated path reason)
  | .error (.notWritten reason) => throw (.notWritten reason)

/-- Runs a search. What was shown stays shown if the output cannot be written. -/
def run {m : Type → Type} [Monad m] (r : Request) (files : Files m) : m Outcome := do
  match ← (r.load files).run with
  | .error e => return { exitCode := 1, errors := (Failure.load e).text }
  | .ok table =>
    match r.report table with
    | .error e => return { exitCode := 1, errors := e.text }
    | .ok report =>
      match r.arguments.output with
      | none => return { exitCode := 0, output := report.table }
      | some path =>
        match ← (r.write files path report).run with
        | .ok () => return { exitCode := 0, output := report.table }
        | .error e =>
          return { exitCode := 1, output := report.table, errors := (Failure.write path e).text }

end Request

def usage : String :=
  "Usage: hybrid-sr [OPTIONS] --y <COLUMN> <FILE>\n"

def run {m : Type → Type} [Monad m] (files : Files m) (words : List String) : m Outcome :=
  match Command.read? words with
  | none => return { exitCode := 2, errors := usage }
  | some .listOperators => return { exitCode := 0, output := operatorList }
  | some (.search request) => request.run files

end CommandLine

end SymbolicRegression
