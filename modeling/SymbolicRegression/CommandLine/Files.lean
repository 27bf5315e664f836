import SymbolicRegression.Text.Blank

/-!
# Files of the command line

The command line reads one file and may write one. It reaches them through operations of any monad,
so that the same command runs on real files and on files kept in memory. A path is a sequence of
names; the extension of the last one tells the format of the file.
-/

namespace SymbolicRegression

namespace CommandLine

/-- Why a file could not be read, in the words of the operating system. -/
inductive ReadFailure where
  | notOpened (reason : String)
  | notRead (reason : String)

/-- Why a file could not be written, in the words of the operating system. -/
inductive WriteFailure where
  | notCreated (reason : String)
  | notWritten (reason : String)

structure Files (m : Type → Type) where
  read : String → m (Except ReadFailure (List UInt8))
  write : String → String → m (Except WriteFailure Unit)

/-- The names in a path. Empty ones and single dots name nothing. -/
def pathNames (path : String) : List String :=
  ((path.toList.splitOn '/').map String.ofList).filter fun name => name ≠ "" ∧ name ≠ "."

/-- The extension of a name: what follows the last dot, if something precedes that dot. -/
def nameExtension (name : String) : String :=
  let cs := name.toList.reverse
  if (cs.dropWhile (· != '.')).length < 2 then ""
  else String.ofList (cs.takeWhile (· != '.')).reverse

/-- The extension of the file at a path, in small letters. -/
def extension (path : String) : String :=
  match (pathNames path).getLast? with
  | none | some ".." => ""
  | some name => Text.lower (nameExtension name)

end CommandLine

end SymbolicRegression
