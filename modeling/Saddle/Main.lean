import Saddle.CommandLine.Run
import Saddle.Elimination.ApproximateMinimumDegree

/-!
# The program

Reads the files that the command line names, prints the report line by line, and
ends with the number of the failure, if there is one. Memory is taken to be there for
what fits into the addresses of a process.
-/

namespace Saddle.CommandLine

/-- The machine that the program runs on. -/
def machine : Machine where
  allocates bytes := Nat.ble bytes (Nat.pow 2 47)
  amd := Elimination.ApproximateMinimumDegree.order

/-- The bytes of a file, or why it cannot be read. -/
def readFile (name : String) : IO (Except Market.SourceError (List UInt8)) := do
  try
    return .ok (← IO.FS.readBinFile name).toList
  catch
    | .noFileOrDirectory .. => return .error .missing
    | e => return .error (.other (toString e))

/-- Reads all files that the arguments name. -/
def readFiles (arguments : List String) : IO Files := do
  let names :=
    match Options.read arguments with
    | some o => o.settings.toList ++ o.files
    | none => []
  let contents ← names.mapM fun name => return (name, ← readFile name)
  return fun name => (contents.lookup name).getD (.error .missing)

end Saddle.CommandLine

open Saddle.CommandLine in
def main (arguments : List String) : IO UInt32 := do
  match run machine arguments (← readFiles arguments) with
  | none =>
      IO.eprintln "the arrays of a matrix do not fit together"
      return 1
  | some outcome =>
      outcome.lines.forM IO.println
      match outcome.failure with
      | none => return 0
      | some failure =>
          IO.eprintln failure.message
          return .ofNat failure.exitCode
