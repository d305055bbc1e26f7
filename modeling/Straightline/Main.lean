import Straightline.CommandLine.Run

/-! The command line: reads the input file, and prints the outcome of the run. -/
namespace Straightline.CommandLine

def readFile (name : String) : IO (Except ReadError ByteArray) := do
  try
    return .ok (← IO.FS.readBinFile name)
  catch e =>
    match e with
    | .noFileOrDirectory .. => return .error .notFound
    | .inappropriateType .. => return .error .isDirectory
    | e => return .error (.other e.toString)

def Outcome.print (o : Outcome) : IO UInt32 := do
  match o with
  | .finished _ out err =>
    IO.print out
    IO.eprint err
  | .misused => IO.eprintln "usage: [-s | -p | -r | -x | -k K] [-v] [--victim-window N] [--spill-base N] FILE"
  | .fault _ => IO.eprintln "internal fault"
  return o.code

end Straightline.CommandLine

open Straightline.CommandLine in
def main (args : List String) : IO UInt32 := do
  match Invocation.ofArguments args with
  | some inv => (inv.run (← readFile inv.input)).print
  | none => Outcome.misused.print
