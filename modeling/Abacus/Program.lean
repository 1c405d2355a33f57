import Abacus.Evaluation
import Abacus.Expr.Parser

/-!
# Program — running source texts

A program is a list of statements. `runSource` reads all of it before it evaluates any of it, so a
text that is not a program changes nothing; its answer is the value of the last statement.
-/

namespace Abacus

/-- Why a source text has no answer. -/
inductive ProgramError where
  | parsing (error : ParseError)
  | evaluation (error : EvalError)

/-- What the user is told. -/
def ProgramError.message : ProgramError → String
  | .parsing error => error.message
  | .evaluation error => error.message

/-- What `step` answers for each of some statements, in order up to the first one that fails; what it
failed with; and the session in the end. -/
def runAll {α : Type} (step : Expr → Evaluation α) :
    List Expr → Session → List α × Option EvalError × Session
  | [], s => ([], none, s)
  | e :: es, s =>
    match step e s with
    | (.error error, s) => ([], some error, s)
    | (.ok x, s) =>
      let (xs, error, s) := runAll step es s
      (x :: xs, error, s)

/-- The value of the last of some statements. -/
def runStatements : List Expr → Evaluation (Option Decimal)
  | [] => pure none
  | [e] => do
    let x ← e.eval
    pure (some x)
  | e :: es => do
    let _ ← e.eval
    runStatements es

/-- **The value of the last statement of a source text**, if it has one. -/
def runSource (source : String) (s : Session) :
    Except ProgramError (Option Decimal) × Session :=
  match parseProgram source with
  | .error error => (.error (.parsing error), s)
  | .ok statements =>
    match runStatements statements s with
    | (.ok x, s) => (.ok x, s)
    | (.error error, s) => (.error (.evaluation error), s)

end Abacus
