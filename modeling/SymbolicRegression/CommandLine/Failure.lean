import SymbolicRegression.Options.Check
import SymbolicRegression.Registry
import SymbolicRegression.Search
import SymbolicRegression.Table.Reading
import SymbolicRegression.Table.Selector

/-!
# Failures of the command line

A failure is shown as a chain of messages: what was tried first, then what went wrong in it, down to
the first cause.
-/

namespace SymbolicRegression

namespace CommandLine

inductive LoadFailure where
  | unsupported (extension : String)
  | notOpened (path reason : String)
  | headersNotRead (path reason : String)
  | recordNotRead (row : Nat) (reason : String)
  | notNumeric (row column : Nat) (raw : String) (error : NumeralError)

inductive SelectFailure where
  | badSelector (what : String) (error : SelectorError)
  | noColumn (what : String) (error : ColumnError)
  | badSelection (error : SelectionError)

inductive OperatorFailure where
  | noOperators
  | unknown (raw : String)
  | refused (raw : String) (error : RegistryError)

inductive OutputFailure where
  | tableFormat
  | notCreated (path reason : String)
  | notWritten (reason : String)

inductive Failure where
  | load (failure : LoadFailure)
  | select (failure : SelectFailure)
  | operators (failure : OperatorFailure)
  | options (error : OptionsError)
  | search (error : SearchError)
  | noOutcome
  | write (path : String) (failure : OutputFailure)

namespace LoadFailure

def chain : LoadFailure → List String
  | unsupported extension =>
    [s!"unsupported input extension {Text.quoted extension} (expected .csv)"]
  | notOpened path reason => [s!"failed to open CSV {path}", reason]
  | headersNotRead path reason => [s!"failed to read CSV headers from {path}", reason]
  | recordNotRead row reason => [s!"failed to read CSV record at row {row}", reason]
  | notNumeric row column raw error =>
    [s!"failed to parse float at row {row}, column {column}: raw={Text.quoted raw}", error.message]

/-- The failure that a fault in the file at a path amounts to. -/
def ofTableError (path : String) : TableError → LoadFailure
  | .header error => headersNotRead path error.message
  | .record row error => recordNotRead row error.message
  | .cell row column raw error => notNumeric row column raw error

end LoadFailure

namespace SelectFailure

def chain : SelectFailure → List String
  | badSelector what error => [s!"failed to parse {what}", error.message]
  | noColumn what error => [s!"failed to resolve {what}", error.message]
  | badSelection error => [error.message]

end SelectFailure

namespace OperatorFailure

def chain : OperatorFailure → List String
  | noOperators => ["no operators enabled (use --operators)"]
  | unknown raw => [s!"unknown operator {Text.quoted raw} (see --list-operators)"]
  | refused raw error => [s!"failed to register operator {Text.quoted raw}", error.message]

end OperatorFailure

namespace OutputFailure

def chain : OutputFailure → List String
  | tableFormat => ["table output is only supported on stdout"]
  | notCreated path reason => [s!"failed to create {path}", reason]
  | notWritten reason => [reason]

end OutputFailure

namespace Failure

/-- The messages, from what was tried down to the first cause. -/
def chain : Failure → List String
  | load failure => "failed to load input table" :: failure.chain
  | select failure => "failed to build dataset" :: failure.chain
  | operators failure => failure.chain
  | options error => [error.message]
  | search error => ["search failed", error.message]
  | noOutcome => ["search failed", "the search has no outcome"]
  | write path failure => s!"failed to write output to {path}" :: failure.chain

/-- A message with its further lines indented as well. -/
def indented (indentation message : String) : String :=
  String.ofList (message.toList.flatMap fun c => if c = '\n' then c :: indentation.toList else [c])

/-- Causes as they are listed: numbered, unless there is only one. -/
def listCauses : List String → String
  | [] => ""
  | [cause] => "\nCaused by:\n    " ++ indented "    " cause ++ "\n"
  | causes => "\nCaused by:\n" ++ String.join
      (causes.zipIdx.map fun (cause, i) => s!"    {i}: " ++ indented "       " cause ++ "\n")

def text (f : Failure) : String :=
  match f.chain with
  | [] => ""
  | message :: causes => s!"Error: {message}\n" ++ listCauses causes

end Failure

end CommandLine

end SymbolicRegression
