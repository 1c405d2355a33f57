import Abacus.CommandLine

/-!
# Main — the program `abacus`

Reads the script, runs it, and writes what the run reports.
-/

namespace Abacus

/-- The content of a file, if it can be read as text. -/
def readFile? (path : String) : IO (Option String) := do
  try
    return some (← IO.FS.readFile path)
  catch _ =>
    return none

/-- The source of a run: the script itself, or the content of the file that it names. -/
def readSource? (o : CommandLine.Options) : IO (Option String) :=
  if o.file then readFile? o.script else pure (some o.script)

/-- How the program is called. -/
def usage : String :=
  "Usage: abacus [OPTIONS] <CONTENTS>"

/-- What the program says about itself. -/
def help : String :=
  "\n".intercalate [
    "An arbitrary-precision decimal expression interpreter with a built-in function library.",
    "",
    usage,
    "",
    "Arguments:",
    "  <CONTENTS>",
    "",
    "Options:",
    "  -f, --file                   Tells abacus to read the contents from a file instead of the "
      ++ "argument",
    "  -p, --precision <PRECISION>  Number of significant digits kept by inexact operations "
      ++ "[default: " ++ Digits.text Context.defaultPrecision ++ "]",
    "  -s, --simplify               Prints each statement simplified instead of evaluating it",
    "  -h, --help                   Print help",
    "  -V, --version                Print version"]

/-- The name of the program and the number of its release. -/
def release : String :=
  "abacus 0.1.0"

/-- Writes what a run reports, and answers its status. -/
def runScript (options : CommandLine.Options) : IO UInt32 := do
  let source ← readSource? options
  let random := mkStdGen (← IO.rand 0 (twoTo 31))
  let report := CommandLine.run options source random
  IO.print report.output
  match report.ending with
  | .done => pure ()
  | .failed message => IO.eprintln message
  | .stopped => IO.eprintln EvalError.stopped.message
  return UInt32.ofNat report.status

end Abacus

/-- Does what the arguments ask for. -/
def main (args : List String) : IO UInt32 := do
  match Abacus.CommandLine.parse args with
  | none =>
    IO.eprintln Abacus.usage
    return 2
  | some .help =>
    IO.println Abacus.help
    return 0
  | some .version =>
    IO.println Abacus.release
    return 0
  | some (.run options) => Abacus.runScript options
