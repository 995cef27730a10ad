import Supergraph.CommandLine

/-!
# The program

Reads the schema, runs the command and writes what it has to say.
-/

namespace Supergraph
namespace CommandLine

/-- The cause of an error of the system. -/
def causeOf (e : IO.Error) : ReadFailure :=
  match e with
  | .noFileOrDirectory .. => .missing
  | .inappropriateType _ 20 _ => .notDirectory
  | .inappropriateType _ 21 _ => .isDirectory
  | e => .other (toString e)

/-- Reads the file or standard input: the text, or why there is none. -/
def readSource (a : Arguments) : IO (Except ReadFailure String) := do
  try
    let bytes ←
      if a.readsStandardInput then (← IO.getStdin).readBinToEnd else IO.FS.readBinFile a.path
    match String.fromUTF8? bytes with
    | some text => return .ok text
    | none => return .error .notText
  catch e => return .error (causeOf e)

/-- Writes the outcome and gives the exit code. -/
def report (o : Outcome) : IO UInt32 := do
  match o with
  | .written sdl => IO.println sdl
  | .failed message => IO.eprintln ("Error: " ++ message)
  | .diagnostics => IO.eprintln "Error: the schema has errors"
  | .usage =>
      IO.eprintln "Usage: compose <SCHEMA> [--prefix <PREFIX>] [--prefix-self] [--hide-fusion]"
  return UInt32.ofNat o.exitCode

/-- Runs the command with these arguments. -/
def execute (args : List String) : IO UInt32 := do
  match parse? args with
  | none => report .usage
  | some a => report (a.run (← readSource a))

end CommandLine
end Supergraph

def main (args : List String) : IO UInt32 :=
  Supergraph.CommandLine.execute args
