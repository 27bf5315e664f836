import SymbolicRegression.Json.Text
import SymbolicRegression.Metric.Basic
import SymbolicRegression.Minimize.Optimizer
import SymbolicRegression.Number.Reading

/-!
# Options of a search

Each option has a default. Options can be read from a JSON object, where missing entries take their
defaults and unknown ones are ignored, or from an array, which gives the first options in the order
of declaration.
-/

namespace SymbolicRegression

structure Options where
  seed : Nat := 0
  candidates : Nat := 64
  minHeight : Nat := 1
  maxHeight : Nat := 3
  terminalRatio : Float := 0.5
  generationRetries : Nat := 16
  blocks : Nat := 2
  trainWeight : Float := 0
  optimizerIterations : Nat := 100
  optimizerRestarts : Nat := 2
  optimizerCallLimit : Nat := 10000
  decimals : Nat := 3
  shown : Nat := 10
  progress : Bool := true
  grow : Bool := false
  metric : MetricKind := .mse
  complexityPenalty : Option Float := none

namespace Options

def descent (o : Options) : Descent where
  iterations := o.optimizerIterations
  callLimit := o.optimizerCallLimit
  restarts := o.optimizerRestarts
  seed := o.seed.toUInt64

def wide : Nat := Nat.pow 2 64

def narrow : Nat := Nat.pow 2 32

/-- A natural number below `bound`, written as digits only. -/
def nat? (bound : Nat) : Json → Option Nat
  | .number numeral => if numeral.all Char.isDigit then Numeral.readNat? bound numeral else none
  | _ => none

def float? : Json → Option Float
  | .number numeral => Numeral.read? numeral
  | _ => none

def bool? : Json → Option Bool
  | .bool b => some b
  | _ => none

/-- A metric without settings is a name; one with settings is an object of one entry, and the
settings are an object as well. -/
def metric? : Json → Option MetricKind
  | .string name => plain? name
  | .object [(name, settings)] =>
    match name, settings with
    | "Huber", .object entries => (Json.entry? entries "delta").bind fun d =>
        (float? d).map .huber
    | "Huber", _ => none
    | name, .null => plain? name
    | _, _ => none
  | _ => none
where
  plain? : String → Option MetricKind
    | "Mse" => some .mse
    | "Mae" => some .mae
    | "Rmse" => some .rmse
    | "LogCosh" => some .logCosh
    | _ => none

def optionalFloat? : Json → Option (Option Float)
  | .null => some none
  | j => (float? j).map some

/-- One option in a document: its name, how it is read, and how it is written. -/
structure Field where
  name : String
  read : Json → Options → Option Options
  write : Options → Json

def metricJson : MetricKind → Json
  | .huber delta => .object [("Huber", .object [("delta", Json.ofFloat delta)])]
  | kind => .string kind.name

/-- A field that holds a natural number below `bound`. -/
def natField (name : String) (bound : Nat) (get : Options → Nat)
    (set : Nat → Options → Options) : Field where
  name
  read j o := (nat? bound j).map fun n => set n o
  write o := Json.ofNat (get o)

def floatField (name : String) (get : Options → Float) (set : Float → Options → Options) :
    Field where
  name
  read j o := (float? j).map fun x => set x o
  write o := Json.ofFloat (get o)

def boolField (name : String) (get : Options → Bool) (set : Bool → Options → Options) : Field where
  name
  read j o := (bool? j).map fun b => set b o
  write o := .bool (get o)

def fields : List Field := [
  natField "seed" wide (·.seed) fun n o => { o with seed := n },
  natField "n_candidates" wide (·.candidates) fun n o => { o with candidates := n },
  natField "min_height" wide (·.minHeight) fun n o => { o with minHeight := n },
  natField "max_height" wide (·.maxHeight) fun n o => { o with maxHeight := n },
  floatField "terminal_ratio" (·.terminalRatio) fun x o => { o with terminalRatio := x },
  natField "generation_retries" wide (·.generationRetries) fun n o =>
    { o with generationRetries := n },
  natField "n_split" wide (·.blocks) fun n o => { o with blocks := n },
  floatField "train_weight" (·.trainWeight) fun x o => { o with trainWeight := x },
  natField "optimizer_iterations" wide (·.optimizerIterations) fun n o =>
    { o with optimizerIterations := n },
  natField "optimizer_nrestarts" wide (·.optimizerRestarts) fun n o =>
    { o with optimizerRestarts := n },
  natField "optimizer_f_calls_limit" wide (·.optimizerCallLimit) fun n o =>
    { o with optimizerCallLimit := n },
  natField "decimals" narrow (·.decimals) fun n o => { o with decimals := n },
  natField "topn" wide (·.shown) fun n o => { o with shown := n },
  boolField "progress" (·.progress) fun b o => { o with progress := b },
  boolField "grow" (·.grow) fun b o => { o with grow := b },
  { name := "metric"
    read := fun j o => (metric? j).map fun m => { o with metric := m }
    write := fun o => metricJson o.metric },
  { name := "complexity_penalty"
    read := fun j o => (optionalFloat? j).map fun p => { o with complexityPenalty := p }
    write := fun o => (o.complexityPenalty.map Json.ofFloat).getD .null }]

/-- The options that a document holds; none if an entry is not what its option takes. -/
def ofJson? : Json → Option Options
  | .object entries =>
    fields.foldlM (fun o field =>
      match Json.entry? entries field.name with
      | some j => field.read j o
      | none => some o) {}
  | .array items =>
    if fields.length < items.length then none
    else (fields.zip items).foldlM (fun o (field, j) => field.read j o) {}
  | _ => none

/-- The options as a document, every one of them written. -/
def toJson (o : Options) : Json :=
  .object (fields.map fun field => (field.name, field.write o))

end Options

end SymbolicRegression
