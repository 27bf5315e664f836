import SymbolicRegression.CommandLine.Run

/-!
# The program

Runs the command line on real files.
-/

namespace SymbolicRegression

namespace CommandLine

def systemMessage (details : String) (code : UInt32) : String :=
  s!"{details} (os error {code})"

def failureText : IO.Error → String
  | .alreadyExists _ code details | .resourceBusy code details | .otherError code details
  | .resourceVanished code details | .unsupportedOperation code details
  | .hardwareFault code details | .unsatisfiedConstraints code details
  | .illegalOperation code details | .protocolError code details | .timeExpired code details
  | .interrupted _ code details | .noFileOrDirectory _ code details
  | .invalidArgument _ code details | .permissionDenied _ code details
  | .resourceExhausted _ code details | .inappropriateType _ code details
  | .noSuchThing _ code details => systemMessage details code
  | .unexpectedEof => "unexpected end of file"
  | .userError message => message

def readFile (path : String) : IO (Except ReadFailure (List UInt8)) := do
  match ← (IO.FS.Handle.mk path .read).toBaseIO with
  | .error e => return .error (.notOpened (failureText e))
  | .ok handle =>
    match ← handle.readBinToEnd.toBaseIO with
    | .error e => return .error (.notRead (failureText e))
    | .ok bytes => return .ok bytes.toList

def writeFile (path text : String) : IO (Except WriteFailure Unit) := do
  match ← (IO.FS.Handle.mk path .write).toBaseIO with
  | .error e => return .error (.notCreated (failureText e))
  | .ok handle =>
    match ← (handle.putStr text *> handle.flush).toBaseIO with
    | .error e => return .error (.notWritten (failureText e))
    | .ok () => return .ok ()

end CommandLine

end SymbolicRegression

open SymbolicRegression in
def main (words : List String) : IO UInt32 := do
  let outcome ← CommandLine.run ⟨CommandLine.readFile, CommandLine.writeFile⟩ words
  IO.print outcome.output
  IO.eprint outcome.errors
  return UInt32.ofNat outcome.exitCode
