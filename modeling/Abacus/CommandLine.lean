import Abacus.Expr.Simplify
import Abacus.Program

/-!
# CommandLine — options, and what a run writes

    abacus [-f | --file] [-s | --simplify] [-p N | --precision N] SCRIPT

The script is the program itself, or with `--file` the name of a file that holds it. Options may come
in any order, before and after the script, and single letters may be grouped; after `--` everything is
a script. `-h | --help` and `-V | --version` ask for a text about the program instead, as soon as they
are read: what comes before them has to be in order, what comes after them is not looked at. `parse`
reads the arguments, and `run` says what is written and how the run ends.
-/

namespace Abacus.CommandLine

/-- How a program is to be run. -/
structure Options where
  /-- The program, or the name of the file that holds it. -/
  script : String
  /-- Whether the script is the name of a file. -/
  file : Bool
  /-- Whether statements are simplified and shown instead of evaluated. -/
  simplify : Bool
  /-- How many digits inexact operations keep. -/
  precision : Nat

/-- What was asked for. -/
inductive Request where
  | run (options : Options)
  /-- How the program is used. -/
  | help
  /-- Which program this is. -/
  | version

/-! ## Reading the arguments -/

/-- The options found so far; each may be given once. -/
structure Found where
  script : Option String
  file : Bool
  simplify : Bool
  precision : Option Nat

/-- An option, as it is written. -/
inductive Flag where
  | file
  | simplify
  /-- The precision, with its value or with the value still to come. -/
  | precision (value : Option (List Char))
  | help
  | version

/-- Where the options of an argument lead. -/
inductive Step where
  /-- To the next argument. -/
  | next (found : Found)
  /-- To the next argument, which is the value of the precision. -/
  | value (found : Found)
  /-- To an answer, whatever follows. -/
  | answer (request : Request)

/-- A natural number of 64 bits, possibly with a plus in front of it. -/
def readWord? (cs : List Char) : Option Nat :=
  let digits := match cs with
    | '+' :: rest => rest
    | _ => cs
  (Decimal.readPlain? digits).filter (· < twoTo 64)

namespace Found

/-- Adds a script. -/
def addScript (found : Found) (script : String) : Option Found :=
  match found.script with
  | none => some { found with script := some script }
  | some _ => none

/-- Adds a precision. -/
def addPrecision (found : Found) (value : List Char) : Option Found :=
  match found.precision, readWord? value with
  | none, some n => some { found with precision := some n }
  | _, _ => none

/-- Adds the options of an argument one by one. -/
def addFlags (found : Found) : List Flag → Option Step
  | [] => some (.next found)
  | .file :: rest => if found.file then none else addFlags { found with file := true } rest
  | .simplify :: rest =>
    if found.simplify then none else addFlags { found with simplify := true } rest
  | .precision none :: _ => some (.value found)
  | .precision (some value) :: rest => do
    let found ← found.addPrecision value
    addFlags found rest
  | .help :: _ => some (.answer .help)
  | .version :: _ => some (.answer .version)

/-- A run with these options, if there is a script. -/
def toRequest (found : Found) : Option Request :=
  found.script.map fun script =>
    .run ⟨script, found.file, found.simplify, found.precision.getD Context.defaultPrecision⟩

end Found

/-- The options of a group of letters. Nothing in it is read after a letter that has an answer. -/
def readLetters : List Char → Option (List Flag)
  | [] => some []
  | 'h' :: _ => some [.help]
  | 'V' :: _ => some [.version]
  | 'f' :: rest => (readLetters rest).map (.file :: ·)
  | 's' :: rest => (readLetters rest).map (.simplify :: ·)
  | ['p'] => some [.precision none]
  | 'p' :: '=' :: value => some [.precision (some value)]
  | 'p' :: value => some [.precision (some value)]
  | _ => none

/-- The option of a word. -/
def readWord (word : List Char) : Option (List Flag) :=
  let name := String.ofList (word.takeWhile (· != '='))
  match name, word.dropWhile (· != '=') with
  | "file", [] => some [.file]
  | "simplify", [] => some [.simplify]
  | "precision", [] => some [.precision none]
  | "precision", _ :: value => some [.precision (some value)]
  | "help", [] => some [.help]
  | "version", [] => some [.version]
  | _, _ => none

/-- What an argument is. -/
inductive Argument where
  /-- Everything after it is a script. -/
  | separator
  | flags (flags : List Flag)
  | script (text : String)

/-- Tells options from scripts. A lone `-` is a script. -/
def readArgument (arg : String) : Option Argument :=
  match arg.toList with
  | ['-'] => some (.script arg)
  | ['-', '-'] => some .separator
  | '-' :: '-' :: word => (readWord word).map .flags
  | '-' :: letters => (readLetters letters).map .flags
  | _ => some (.script arg)

/-- Reads the arguments one by one. -/
def readFrom (found : Found) : List String → Option Request
  | [] => found.toRequest
  | arg :: rest =>
    match readArgument arg with
    | none => none
    | some .separator => do
      let found ← rest.foldlM Found.addScript found
      found.toRequest
    | some (.script text) =>
      match found.addScript text with
      | none => none
      | some found => readFrom found rest
    | some (.flags flags) =>
      match found.addFlags flags, rest with
      | none, _ => none
      | some (.answer request), _ => some request
      | some (.next found), rest => readFrom found rest
      | some (.value _), [] => none
      | some (.value found), value :: rest =>
        -- a value that looks like an option is none
        match readArgument value with
        | some (.script value) =>
          match found.addPrecision value.toList with
          | none => none
          | some found => readFrom found rest
        | _ => none

/-- **What the arguments ask for**, or nothing if that cannot be said. -/
def parse (args : List String) : Option Request :=
  readFrom ⟨none, false, false, none⟩ args

/-! ## Running -/

/-- How a run ends. -/
inductive Ending where
  /-- All went well. -/
  | done
  /-- The user is told what went wrong. -/
  | failed (message : String)
  /-- The program stopped on the spot. -/
  | stopped
deriving DecidableEq

namespace Ending

/-- The status that tells the shell. -/
def status : Ending → Nat
  | .done => 0
  | .failed _ => 1
  | .stopped => 101

/-- What the user is told. -/
def error : Ending → Option String
  | .failed message => some message
  | _ => none

/-- The ending of a run whose statements have all been gone through, or one of which failed. -/
def ofFailure : Option EvalError → Ending
  | none => .done
  | some .stopped => .stopped
  | some error => .failed error.message

end Ending

/-- What a run writes, line by line, and how it ends. -/
structure Report where
  lines : List String
  ending : Ending

namespace Report

/-- The status that tells the shell how the run ends. -/
def status (r : Report) : Nat :=
  r.ending.status

/-- What the user is told went wrong. -/
def error (r : Report) : Option String :=
  r.ending.error

/-- The output, each line with its end. -/
def output (r : Report) : String :=
  String.join (r.lines.map (· ++ "\n"))

end Report

/-- The run ends here. -/
def fail (message : String) : Report :=
  ⟨[], .failed message⟩

/-- The report of a run that makes `step` of each statement, one after the other in one session, and
writes what `text` makes of the answer. -/
def report {α : Type} (step : Expr → Evaluation α) (text : α → String) (statements : List Expr)
    (s : Session) : Report :=
  let (answers, error, _) := runAll step statements s
  ⟨answers.map text, .ofFailure error⟩

/-- The lines that statements show, up to the first one that fails. -/
def runProgram (simplify : Bool) (statements : List Expr) (s : Session) : Report :=
  if simplify then report Expr.simplifyIn Expr.text statements s
  else report Expr.eval Decimal.text statements s

/-- **A run with the given options.** The source is missing if the file could not be read. -/
def run (o : Options) (source : Option String) (random : StdGen) : Report :=
  match source with
  | none =>
    fail ("Failed to read the input file '" ++ o.script ++ "'. Perhaps this file does not exist?")
  | some source =>
    match Context.ofPrecision? o.precision .halfEven with
    | none => fail ("Precision must be between 1 and " ++ Digits.text Context.maxPrecision ++ ".")
    | some c =>
      match parseProgram source with
      | .error error => fail error.message
      | .ok statements => runProgram o.simplify statements (Session.initial c random)

end Abacus.CommandLine
