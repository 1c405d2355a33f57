import Abacus.Error.Evaluation
import Abacus.Token.Basic

/-!
# Error/Parsing — why a source text is not a program

A `ParseError` is a fault and the line it was found on.
-/

namespace Abacus

/-- What is wrong with a source text. -/
inductive ParseFault where
  /-- A character that begins no token. -/
  | unexpectedCharacter (c : Char)
  /-- A number with too large an exponent. -/
  | numberOutOfRange (literal : String)
  /-- A token that begins no expression. -/
  | unexpectedToken (found : Token)
  /-- A token after an argument that neither separates nor ends the arguments. -/
  | unexpectedInArguments (found : Token)
  /-- The text ends inside an expression. -/
  | endOfInput
  /-- A parenthesis that is not closed. -/
  | unclosedParenthesis
  /-- A call of a function that there is not. -/
  | unknownFunction (name : String)
  /-- A token after the end of a statement. -/
  | trailingToken (found : Token)
  /-- A call that a function does not take. -/
  | invalidCall (cause : EvalError)

/-- A fault and the line it was found on. -/
structure ParseError where
  line : Nat
  fault : ParseFault

/-- The wording of a fault. -/
def ParseFault.message : ParseFault → String
  | .unexpectedCharacter c => "Unexpected token: " ++ c.toString ++ "."
  | .numberOutOfRange literal => "Number out of range: " ++ literal ++ "."
  | .unexpectedToken found => "Unexpected token: " ++ found.describe ++ "."
  | .unexpectedInArguments found =>
    "Unexpected token: Expected ',' or RParen, found " ++ found.describe ++ "."
  | .endOfInput => "Unexpected end of input."
  | .unclosedParenthesis => "Expected closing parenthesis ')' but none found."
  | .unknownFunction name => "Unknown function '" ++ name ++ "'."
  | .trailingToken found =>
    "Extra tokens after expression. Check your input: " ++ found.describe
  | .invalidCall cause => cause.message

/-- What the user is told. -/
def ParseError.message (e : ParseError) : String :=
  "Error on line " ++ Digits.text e.line ++ ": " ++ e.fault.message

end Abacus
