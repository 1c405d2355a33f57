import Abacus.Binary64.Conversion
import Abacus.Expr.Printer

/-!
# Error/Evaluation — why an expression has no value

One constructor for each cause, with what is needed to tell the user about it, and one function
`message` that words them all.
-/

namespace Abacus

/-- Why an expression has no value. -/
inductive EvalError where
  /-- A variable is not bound. -/
  | unknownVariable (name : String)
  /-- A function is called with a number of arguments that it does not take. -/
  | arityMismatch (f : Builtin) (args : List Expr)
  /-- What is assigned to is not a variable. -/
  | invalidTarget (target : Expr)
  /-- A constant is assigned to. -/
  | constantRedefinition (name : String)
  /-- The factorial of a number that is not an integer. -/
  | factorialNotInteger (value : Decimal)
  /-- The factorial of a negative integer. -/
  | factorialNegative (value : Decimal)
  /-- An integer too large to be tested for primality. -/
  | primeTooLarge (value : Decimal)
  /-- The lower bound of a series is above the upper one. -/
  | invalidBounds (lower upper : Decimal)
  /-- An operator in front of an operand that is no sign. -/
  | unsupportedOperator (op : Operator)
  | divisionByZero
  /-- A floating-point result that no decimal stands for. -/
  | notRepresentable (value : NonFinite)
  /-- A number beyond the floating-point numbers. -/
  | outOfFloatRange (value : Decimal)
  /-- A scale that does not fit in 64 bits, found before it is computed. -/
  | exponentOverflow
  /-- A shift by too many places. -/
  | shiftOutOfRange (amount : Decimal)
  /-- Bindings that refer to each other without end. -/
  | circularBinding (name : String)
  /-- A scale that leaves 64 bits where nothing looks out for it. This is no error that the user is
  told about: the program stops on the spot. -/
  | stopped

/-- What the user is told. -/
def EvalError.message : EvalError → String
  | .unknownVariable name => "unknown variable \"" ++ name ++ "\""
  | .arityMismatch f args =>
    let need := Digits.text f.arity
    let got := Digits.text args.length
    let shown := if args.isEmpty then "" else ": " ++ ", ".intercalate (args.map Expr.text)
    "wrong number of arguments to function \"" ++ f.name ++ "\"; need " ++ need ++ " but got "
      ++ got ++ shown
  | .invalidTarget target =>
    "lhs of an assignment must be a variable name (user-defined functions are not supported); got "
      ++ target.text
  | .constantRedefinition name => "cannot redefine the constant \"" ++ name ++ "\""
  | .factorialNotInteger value =>
    "factorial requires an integer argument; got " ++ value.text ++ " instead"
  | .factorialNegative value =>
    "factorial requires a non-negative integer argument; got " ++ value.text ++ " instead"
  | .primeTooLarge value =>
    "is_prime uses a naive algorithm unsuitable for huge numbers; got " ++ value.text
  | .invalidBounds lower upper =>
    "minimum (" ++ lower.text ++ ") greater than maximum (" ++ upper.text ++ ")"
  | .unsupportedOperator op =>
    "operator " ++ op.symbol.toString ++ " not implemented for 1 operand(s)"
  | .divisionByZero => "division by zero"
  | .notRepresentable value => value.text ++ " cannot be represented as a decimal number"
  | .outOfFloatRange value =>
    value.text ++ " does not fit in a 64-bit floating-point number"
  | .exponentOverflow => "decimal exponent out of range"
  | .shiftOutOfRange amount => "shift amount " ++ amount.text ++ " is out of range"
  | .circularBinding name => "variable \"" ++ name ++ "\" depends on itself"
  | .stopped => "arithmetic overflow"

/-- **The call of `f` on `args`**, if `f` takes that many. -/
def Builtin.bind (f : Builtin) (args : List Expr) : Except EvalError Expr :=
  if args.length = f.arity then .ok (.call f args) else .error (.arityMismatch f args)

end Abacus
