import SymbolicRegression.Builtin
import SymbolicRegression.CommandLine.Arguments
import SymbolicRegression.CommandLine.Disk
import SymbolicRegression.CommandLine.Failure
import SymbolicRegression.CommandLine.Files
import SymbolicRegression.CommandLine.Run
import SymbolicRegression.Csv.Reading
import SymbolicRegression.Csv.Writing
import SymbolicRegression.Dataset
import SymbolicRegression.Expr.Basic
import SymbolicRegression.Expr.Grammar
import SymbolicRegression.Expr.Lexer
import SymbolicRegression.Expr.Parser
import SymbolicRegression.Expr.Token
import SymbolicRegression.Expr.Value
import SymbolicRegression.ExprType
import SymbolicRegression.Fitness
import SymbolicRegression.Generation
import SymbolicRegression.Individual
import SymbolicRegression.Json.Basic
import SymbolicRegression.Json.Reading
import SymbolicRegression.Json.Text
import SymbolicRegression.Main
import SymbolicRegression.Matrix
import SymbolicRegression.Metric.Basic
import SymbolicRegression.Metric.Loss
import SymbolicRegression.Minimize.LineSearch
import SymbolicRegression.Minimize.Newton
import SymbolicRegression.Minimize.Objective
import SymbolicRegression.Minimize.Optimizer
import SymbolicRegression.Minimize.QuasiNewton
import SymbolicRegression.Minimize.Vector
import SymbolicRegression.Name
import SymbolicRegression.Node.Basic
import SymbolicRegression.Node.Preorder
import SymbolicRegression.Node.Text
import SymbolicRegression.Node.Tree
import SymbolicRegression.Node.Value
import SymbolicRegression.Number.Decimal
import SymbolicRegression.Number.Reading
import SymbolicRegression.Number.Rounding
import SymbolicRegression.Number.Scalar
import SymbolicRegression.Number.Text
import SymbolicRegression.Operator
import SymbolicRegression.Options
import SymbolicRegression.Options.Check
import SymbolicRegression.Polynomial.Basic
import SymbolicRegression.Polynomial.Expand
import SymbolicRegression.Polynomial.Formula
import SymbolicRegression.Polynomial.Text
import SymbolicRegression.Program
import SymbolicRegression.Program.Compile
import SymbolicRegression.Proofs.Compilation.ConstantOrder
import SymbolicRegression.Proofs.Compilation.Faults
import SymbolicRegression.Proofs.Compilation.Slots
import SymbolicRegression.Proofs.CompiledProgram
import SymbolicRegression.Proofs.Datasets.Blocks
import SymbolicRegression.Proofs.Datasets.Columns
import SymbolicRegression.Proofs.Datasets.MaskedRows
import SymbolicRegression.Proofs.Datasets.Rows
import SymbolicRegression.Proofs.Datasets.Selectors
import SymbolicRegression.Proofs.Datasets.Shuffled
import SymbolicRegression.Proofs.DistinctNames
import SymbolicRegression.Proofs.Doubles.Bits
import SymbolicRegression.Proofs.Doubles.Decimals
import SymbolicRegression.Proofs.Doubles.Nearest
import SymbolicRegression.Proofs.Doubles.Products
import SymbolicRegression.Proofs.Doubles.Rounding
import SymbolicRegression.Proofs.Doubles.Shortest
import SymbolicRegression.Proofs.Doubles.SignedZeros
import SymbolicRegression.Proofs.Doubles.TotalOrder
import SymbolicRegression.Proofs.DrawnBatch
import SymbolicRegression.Proofs.Evaluation
import SymbolicRegression.Proofs.Expansion.Arithmetic
import SymbolicRegression.Proofs.Expansion.BuiltAtoms
import SymbolicRegression.Proofs.Expansion.Calls
import SymbolicRegression.Proofs.Expansion.Formulas
import SymbolicRegression.Proofs.Expansion.KeptNames
import SymbolicRegression.Proofs.Expansion.Meaning
import SymbolicRegression.Proofs.Expansion.Operations
import SymbolicRegression.Proofs.Expansion.Overflow
import SymbolicRegression.Proofs.Expansion.Rationals
import SymbolicRegression.Proofs.Expansion.Reading
import SymbolicRegression.Proofs.Expansion.Reduced
import SymbolicRegression.Proofs.Expansion.Symbols
import SymbolicRegression.Proofs.FloatOrder
import SymbolicRegression.Proofs.FreshConstants
import SymbolicRegression.Proofs.GeneratedDepth
import SymbolicRegression.Proofs.GeneratedPrograms
import SymbolicRegression.Proofs.GeneratedTypes
import SymbolicRegression.Proofs.Generation
import SymbolicRegression.Proofs.GenerationEnds
import SymbolicRegression.Proofs.GenerationErrors
import SymbolicRegression.Proofs.GenerationTurns
import SymbolicRegression.Proofs.Lexing
import SymbolicRegression.Proofs.Minimize.CallCounts
import SymbolicRegression.Proofs.Minimize.Directions
import SymbolicRegression.Proofs.Minimize.ExactNumbers
import SymbolicRegression.Proofs.Minimize.Interpolation
import SymbolicRegression.Proofs.Minimize.InverseHessian
import SymbolicRegression.Proofs.Minimize.LocalRuns
import SymbolicRegression.Proofs.Minimize.MoreRestarts
import SymbolicRegression.Proofs.Minimize.NewtonCourse
import SymbolicRegression.Proofs.Minimize.ReportedCalls
import SymbolicRegression.Proofs.Minimize.Restarts
import SymbolicRegression.Proofs.Minimize.SearchTrials
import SymbolicRegression.Proofs.Parsing.Completeness
import SymbolicRegression.Proofs.Parsing.Derivations
import SymbolicRegression.Proofs.Parsing.EarliestErrors
import SymbolicRegression.Proofs.Parsing.Embedding
import SymbolicRegression.Proofs.Parsing.Failures
import SymbolicRegression.Proofs.Parsing.LongestWords
import SymbolicRegression.Proofs.Parsing.Lookahead
import SymbolicRegression.Proofs.Parsing.MaximalMunch
import SymbolicRegression.Proofs.Parsing.NameUses
import SymbolicRegression.Proofs.Parsing.Patterns
import SymbolicRegression.Proofs.Parsing.Soundness
import SymbolicRegression.Proofs.Parsing.Spans
import SymbolicRegression.Proofs.Parsing.Spellings
import SymbolicRegression.Proofs.Parsing.Steps
import SymbolicRegression.Proofs.Parsing.Unambiguous
import SymbolicRegression.Proofs.Printing.Coefficients
import SymbolicRegression.Proofs.Printing.Keys
import SymbolicRegression.Proofs.Printing.Labels
import SymbolicRegression.Proofs.Printing.Layout
import SymbolicRegression.Proofs.Printing.Legible
import SymbolicRegression.Proofs.Printing.LikeTerms
import SymbolicRegression.Proofs.Printing.Nesting
import SymbolicRegression.Proofs.Printing.Numerals
import SymbolicRegression.Proofs.Printing.ReadBack
import SymbolicRegression.Proofs.Printing.Readable
import SymbolicRegression.Proofs.Printing.Superscripts
import SymbolicRegression.Proofs.Printing.Typesetting
import SymbolicRegression.Proofs.RankedBatch
import SymbolicRegression.Proofs.Registries
import SymbolicRegression.Proofs.RegistryLookups
import SymbolicRegression.Proofs.ReproducibleFitness
import SymbolicRegression.Proofs.Resolution
import SymbolicRegression.Proofs.Results
import SymbolicRegression.Proofs.Trees.Ancestors
import SymbolicRegression.Proofs.Trees.Compiled
import SymbolicRegression.Proofs.Trees.Depths
import SymbolicRegression.Proofs.Trees.Listing
import SymbolicRegression.Proofs.Trees.Notation
import SymbolicRegression.Proofs.Trees.Sequences
import SymbolicRegression.Proofs.Trees.Subtrees
import SymbolicRegression.Proofs.WarmStart
import SymbolicRegression.Random.Shuffle
import SymbolicRegression.Random.Stream
import SymbolicRegression.Registry
import SymbolicRegression.Report
import SymbolicRegression.Search
import SymbolicRegression.Table.Basic
import SymbolicRegression.Table.Reading
import SymbolicRegression.Table.Selector
import SymbolicRegression.Text.Blank
import SymbolicRegression.Text.Printable
import SymbolicRegression.Text.Quoted
import SymbolicRegression.Text.Utf8
