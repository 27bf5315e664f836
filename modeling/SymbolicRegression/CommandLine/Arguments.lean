import SymbolicRegression.Options

/-!
# Arguments of the command line

The words of a command are flags, options with a value, and at most one operand, the input. A value
follows its option after an equals sign or as the next word, and then it may not look like an
option. After a word of two dashes only operands follow. Flags and options stand once, except for
those whose values are lists.
-/

namespace SymbolicRegression

namespace CommandLine

inductive Format where
  | table
  | csv
  | json
  deriving Repr, DecidableEq

/-- What the words of a command ask for. -/
structure Arguments where
  data : Option String := none
  noHeader : Bool := false
  oneBased : Bool := false
  features : Option (List String) := none
  target : Option String := none
  weights : Option String := none
  operators : Option (List String) := none
  rootType : ExprType := .var
  listOperators : Bool := false
  output : Option String := none
  format : Option Format := none
  options : Options := {}

inductive Action where
  | flag (set : Arguments → Arguments)
  /-- Takes one value and refuses those it cannot read. -/
  | value (set : String → Arguments → Option Arguments)
  /-- Takes a list of values, each time one more. -/
  | values (add : List String → Arguments → Arguments)

namespace Arguments

/-- A path may not be empty. -/
def readPath? (text : String) : Option String :=
  if text.isEmpty then none else some text

def readRoot? : String → Option ExprType
  | "any" => some .any
  | "variable" => some .var
  | "weighted-sum" => some .weightedSum
  | _ => none

def readFormat? : String → Option Format
  | "table" => some .table
  | "csv" => some .csv
  | "json" => some .json
  | _ => none

/-- A natural number below `bound` that may be written with either sign, so that zero may be
negative. -/
def readSigned? (bound : Nat) (text : String) : Option Nat :=
  match text.toList with
  | '-' :: ds =>
    if ds.head? = some '+' then none
    else (Numeral.readNat? bound (String.ofList ds)).filter (· == 0)
  | _ => Numeral.readNat? bound text

/-- Appends to a list that may not be there yet. -/
def appendTo (list : Option (List String)) (values : List String) : Option (List String) :=
  some (list.getD [] ++ values)

/-- An option that changes the options of the search. -/
def tune {α : Type} (read : String → Option α) (set : α → Options → Options) : Action :=
  .value fun text a => (read text).map fun v => { a with options := set v a.options }

/-- An option for a natural number of at most 64 bits. -/
def tuneCount : (Nat → Options → Options) → Action :=
  tune (Numeral.readNat? Options.wide)

def tuneNumber : (Float → Options → Options) → Action :=
  tune Numeral.read?

def actions : List (String × Action) := [
  ("no-header", .flag fun a => { a with noHeader := true }),
  ("one-indexed", .flag fun a => { a with oneBased := true }),
  ("x", .values fun vs a => { a with features := appendTo a.features vs }),
  ("y", .value fun v a => some { a with target := some v }),
  ("weights", .value fun v a => some { a with weights := some v }),
  ("operators", .values fun vs a => { a with operators := appendTo a.operators vs }),
  ("root", .value fun v a => (readRoot? v).map fun t => { a with rootType := t }),
  ("list-operators", .flag fun a => { a with listOperators := true }),
  ("output", .value fun v a => (readPath? v).map fun p => { a with output := some p }),
  ("format", .value fun v a => (readFormat? v).map fun f => { a with format := some f }),
  ("seed", tuneCount fun n o => { o with seed := n }),
  ("n-candidates", tuneCount fun n o => { o with candidates := n }),
  ("min-height", tuneCount fun n o => { o with minHeight := n }),
  ("max-height", tuneCount fun n o => { o with maxHeight := n }),
  ("terminal-ratio", tuneNumber fun x o => { o with terminalRatio := x }),
  ("generation-retries", tuneCount fun n o => { o with generationRetries := n }),
  ("n-split", tuneCount fun n o => { o with blocks := n }),
  ("train-weight", tuneNumber fun x o => { o with trainWeight := x }),
  ("optimizer-iterations", tuneCount fun n o => { o with optimizerIterations := n }),
  ("optimizer-nrestarts", tuneCount fun n o => { o with optimizerRestarts := n }),
  ("optimizer-f-calls-limit", tuneCount fun n o => { o with optimizerCallLimit := n }),
  ("decimals", tune (readSigned? Options.narrow) fun n o => { o with decimals := n }),
  ("topn", tuneCount fun n o => { o with shown := n }),
  ("no-progress", .flag fun a => { a with options := { a.options with progress := false } }),
  ("grow", .flag fun a => { a with options := { a.options with grow := true } }),
  ("metric", tune MetricKind.ofName? fun m o => { o with metric := m }),
  ("complexity-penalty", tuneNumber fun x o => { o with complexityPenalty := some x })]

def action? (name : String) : Option Action :=
  (actions.find? fun (n, _) => n == name).map Prod.snd

/-- A word that starts with a dash and goes on is no value and no operand. -/
def looksLikeOption (word : String) : Bool :=
  match word.toList with
  | '-' :: _ :: _ => true
  | _ => false

/-- The name of a long option and the value after an equals sign. -/
def splitOption? (word : String) : Option (String × Option String) :=
  match word.toList with
  | '-' :: '-' :: cs =>
    let name := String.ofList (cs.takeWhile (· != '='))
    match cs.dropWhile (· != '=') with
    | [] => some (name, none)
    | _ :: value => some (name, some (String.ofList value))
  | _ => none

def splitValues (text : String) : List String :=
  (text.toList.splitOn ',').map String.ofList

/-- The input; only one is taken, and it may not be empty. -/
def setData? (a : Arguments) (word : String) : Option Arguments :=
  match a.data with
  | some _ => none
  | none => (readPath? word).map fun p => { a with data := some p }

/-- Takes words that are operands only. -/
def readOperands? (words : List String) (a : Arguments) : Option Arguments :=
  words.foldlM setData? a

/-- Takes words one after another. `used` are the names that may not come again. -/
def readFrom? : (words : List String) → (used : List String) → Arguments → Option Arguments
  | [], _, a => some a
  | word :: rest, used, a =>
    if word = "--" then readOperands? rest a
    else match splitOption? word with
      | none =>
        if looksLikeOption word then none
        else match setData? a word with
          | none => none
          | some a => readFrom? rest used a
      | some (name, attached) =>
        if used.contains name then none
        else match action? name, attached, rest with
          | none, _, _ => none
          | some (.flag set), none, rest => readFrom? rest (name :: used) (set a)
          | some (.flag _), some _, _ => none
          | some (.value set), some v, rest =>
            match set v a with
            | none => none
            | some a => readFrom? rest (name :: used) a
          | some (.values add), some v, rest => readFrom? rest used (add (splitValues v) a)
          | some (.value _), none, [] => none
          | some (.values _), none, [] => none
          | some (.value set), none, v :: rest =>
            if looksLikeOption v then none
            else match set v a with
              | none => none
              | some a => readFrom? rest (name :: used) a
          | some (.values add), none, v :: rest =>
            if looksLikeOption v then none
            else readFrom? rest used (add (splitValues v) a)

/-- What the words of a command ask for; none if they are no command. -/
def read? (words : List String) : Option Arguments :=
  readFrom? words [] {}

end Arguments

/-- A search on the columns of a file. -/
structure Request where
  data : String
  target : String
  arguments : Arguments

inductive Command where
  | listOperators
  | search (request : Request)

namespace Command

/-- The command that the words denote. A search needs an input and a target. -/
def read? (words : List String) : Option Command := do
  let a ← Arguments.read? words
  if a.listOperators then return .listOperators
  return .search ⟨← a.data, ← a.target, a⟩

end Command

end CommandLine

end SymbolicRegression
