import SymbolicRegression.CommandLine.Run

/-!
# Files in memory

A disk is a tree of folders that hold files and devices, together with a working folder. On a disk
a command is a function: it takes the disk to what it shows and to the disk that it leaves.

A path is followed name by name, from the top if it starts with a slash and else from the working
folder. Every name but the last has to lead to a folder. The last one decides what is opened; it
may be missing where a file is to be created. A path that ends with a slash asks for a folder, and a
folder can be opened but neither read nor written.
-/

namespace SymbolicRegression

namespace CommandLine

/-- What a name in a folder stands for. -/
inductive Entry where
  | folder
  | file (bytes : List UInt8)
  /-- A device that forgets what is written to it. -/
  | sink
  /-- A device without room for anything. -/
  | full
  /-- What the command shows. -/
  | output
  /-- What the command shows as errors. -/
  | errors

def Entry.bytes : Entry → List UInt8
  | file bytes => bytes
  | _ => []

/-- Why a path does not lead to what is asked for. -/
inductive PathFault where
  | missing
  | notFolder
  | isFolder
  | noSpace
  | tooLong
  deriving Repr, DecidableEq

def PathFault.message : PathFault → String
  | missing => "No such file or directory (os error 2)"
  | notFolder => "Not a directory (os error 20)"
  | isFolder => "Is a directory (os error 21)"
  | noSpace => "No space left on device (os error 28)"
  | tooLong => "File name too long (os error 36)"

def longestName : Nat := 255

def longestPath : Nat := 4095

/-- Where a path ends. -/
inductive PathEnd where
  /-- At a folder, as a path of slashes does or one whose last name is a dot or two. -/
  | folder
  /-- At a name in a folder; `closed` says that a slash follows it. -/
  | named (folder : List String) (name : String) (closed : Bool)

/-- Folders, files and devices by the names that lead to them from the top. -/
structure Disk where
  entries : List (List String × Entry)
  workingFolder : List String
  /-- What has been written to the output by its name. -/
  output : String := ""
  /-- What has been written to the errors by their name. -/
  errors : String := ""

namespace Disk

/-- A disk with the usual folders and devices and an empty working folder. -/
def initial : Disk where
  entries :=
    [["bin"], ["dev"], ["dev", "fd"], ["etc"], ["home"], ["root"], ["tmp"], ["tmp", "work"],
      ["usr"], ["var"]].map (·, .folder)
    ++ [(["dev", "null"], .sink), (["dev", "zero"], .sink), (["dev", "full"], .full),
      (["dev", "stdout"], .output), (["dev", "stderr"], .errors),
      (["dev", "fd", "1"], .output), (["dev", "fd", "2"], .errors)]
  workingFolder := ["tmp", "work"]

/-- What a name in a folder stands for; none if there is no such name. -/
def lookUp (d : Disk) (folder : List String) (name : String) : Except PathFault (Option Entry) :=
  if longestName < name.utf8ByteSize then .error .tooLong
  else .ok ((d.entries.find? fun (place, _) => place == folder ++ [name]).map Prod.snd)

/-- The folder that a name leads to from a folder. Above the top there is the top again. -/
def enter (d : Disk) (folder : List String) (name : String) : Except PathFault (List String) :=
  if name = "." then .ok folder
  else if name = ".." then .ok folder.dropLast
  else
    match d.lookUp folder name with
    | .error e => .error e
    | .ok none => .error .missing
    | .ok (some .folder) => .ok (folder ++ [name])
    | .ok (some _) => .error .notFolder

/-- Follows a path up to its last name. -/
def follow (d : Disk) (path : String) : Except PathFault PathEnd := do
  if longestPath < path.utf8ByteSize then throw .tooLong
  let start := if path.toList.head? = some '/' then [] else d.workingFolder
  let names := ((path.toList.splitOn '/').map String.ofList).filter (· ≠ "")
  let folder ← names.dropLast.foldlM d.enter start
  match names.getLast? with
  | none | some "." | some ".." => return .folder
  | some name => return .named folder name (path.toList.getLast? = some '/')

def contents (d : Disk) (path : String) : Except ReadFailure (List UInt8) := do
  match ← (d.follow path).mapError fun e => .notOpened e.message with
  | .folder => throw (.notRead PathFault.isFolder.message)
  | .named folder name closed =>
    match ← (d.lookUp folder name).mapError fun e => .notOpened e.message with
    | none => throw (.notOpened PathFault.missing.message)
    | some .folder => throw (.notRead PathFault.isFolder.message)
    | some entry =>
      if closed then throw (.notOpened PathFault.notFolder.message) else return entry.bytes

def putFile (d : Disk) (place : List String) (bytes : List UInt8) : Disk :=
  { d with entries := (place, .file bytes) :: d.entries.filter fun (p, _) => p != place }

/-- Creates or replaces the file at a path. A new file never comes to stand at a path that ends with
a slash, whatever is there. -/
def store (d : Disk) (path text : String) : Except WriteFailure Disk := do
  match ← (d.follow path).mapError fun e => .notCreated e.message with
  | .folder => throw (.notCreated PathFault.isFolder.message)
  | .named folder name closed =>
    if closed then throw (.notCreated PathFault.isFolder.message)
    match ← (d.lookUp folder name).mapError fun e => .notCreated e.message with
    | some .folder => throw (.notCreated PathFault.isFolder.message)
    | some .full => throw (.notWritten PathFault.noSpace.message)
    | some .sink => return d
    | some .output => return { d with output := d.output ++ text }
    | some .errors => return { d with errors := d.errors ++ text }
    | some (.file _) | none => return d.putFile (folder ++ [name]) text.toUTF8.toList

/-- Puts a file into the working folder, with the folders that its path names. -/
def addFile (d : Disk) (path : String) (bytes : List UInt8) : Disk :=
  let names := pathNames path
  let folders := (List.range names.length).map fun n => d.workingFolder ++ names.take n
  let d := d.putFile (d.workingFolder ++ names) bytes
  { d with entries := folders.map (·, .folder) ++ d.entries }

/-- The operations of a command on a disk. -/
def files : Files (StateM Disk) where
  read path := do return (← get).contents path
  write path text := do
    match (← get).store path text with
    | .ok d => set d; return .ok ()
    | .error e => return .error e

/-- Runs a command on a disk. What it has written to its output by name comes after what it shows by
itself. -/
def run (d : Disk) (words : List String) : Outcome × Disk :=
  let (outcome, d) := CommandLine.run files words d
  ({ outcome with output := outcome.output ++ d.output, errors := outcome.errors ++ d.errors }, d)

end Disk

end CommandLine

end SymbolicRegression
