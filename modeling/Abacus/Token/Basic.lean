import Abacus.Decimal.Text

/-!
# Token/Basic — the words of a source text

A token is a number, an identifier, a symbol or the end of a line. `describe` is how a message about
an unexpected token names it: a number shows its exact pair, the coefficient cut into words of 64 bits.
-/

namespace Abacus

/-- The operators and marks of punctuation. -/
inductive Symbol where
  | plus | minus | star | slash | percent | caret | bang | tilde | ampersand | pipe
  | shiftLeft | shiftRight | leftParen | rightParen | comma | equals
  | equalEqual | bangEqual | lessEqual | greaterEqual | less | greater
deriving DecidableEq

/-- The characters that write a symbol. -/
def Symbol.chars : Symbol → List Char
  | .plus => ['+']
  | .minus => ['-']
  | .star => ['*']
  | .slash => ['/']
  | .percent => ['%']
  | .caret => ['^']
  | .bang => ['!']
  | .tilde => ['~']
  | .ampersand => ['&']
  | .pipe => ['|']
  | .shiftLeft => ['<', '<']
  | .shiftRight => ['>', '>']
  | .leftParen => ['(']
  | .rightParen => [')']
  | .comma => [',']
  | .equals => ['=']
  | .equalEqual => ['=', '=']
  | .bangEqual => ['!', '=']
  | .lessEqual => ['<', '=']
  | .greaterEqual => ['>', '=']
  | .less => ['<']
  | .greater => ['>']

/-- What a symbol is called in messages. -/
def Symbol.name : Symbol → String
  | .plus => "Plus"
  | .minus => "Minus"
  | .star => "Star"
  | .slash => "Slash"
  | .percent => "Percent"
  | .caret => "Caret"
  | .bang => "Bang"
  | .tilde => "Tilde"
  | .ampersand => "Ampersand"
  | .pipe => "Pipe"
  | .shiftLeft => "ShiftLeft"
  | .shiftRight => "ShiftRight"
  | .leftParen => "LParen"
  | .rightParen => "RParen"
  | .comma => "Comma"
  | .equals => "Equals"
  | .equalEqual => "EqualEqual"
  | .bangEqual => "BangEqual"
  | .lessEqual => "LessEqual"
  | .greaterEqual => "GreaterEqual"
  | .less => "Less"
  | .greater => "Greater"

/-- A word of a source text. -/
inductive Token where
  | number (value : Decimal)
  | identifier (name : String)
  | symbol (s : Symbol)
  | newLine
deriving DecidableEq

/-- A token and the number of the line it stands on. The end of a line stands on the line that it
begins. -/
structure PlacedToken where
  token : Token
  line : Nat
deriving DecidableEq

/-- The words of 64 bits that make up `n`, the least significant first. -/
def words (n : Nat) : List Nat :=
  if n = 0 then [] else n % twoTo 64 :: words (n / twoTo 64)
termination_by n
decreasing_by exact Nat.div_lt_self (by omega) (by decide)

/-- How a message names a number: its sign, its scale and the words of its coefficient. -/
def Decimal.describe (d : Decimal) : String :=
  let sign := if d.coeff = 0 then "NoSign" else if d.isNegative then "Minus" else "Plus"
  let digits := ", ".intercalate ((words d.magnitude).map Digits.text)
  "BigDecimal(sign=" ++ sign ++ ", scale=" ++ Digits.intText d.scale ++ ", digits=[" ++ digits
    ++ "])"

/-- How a message names a token. -/
def Token.describe : Token → String
  | .number d => "Number(" ++ d.describe ++ ")"
  | .identifier name => "Identifier(\"" ++ name ++ "\")"
  | .symbol s => s.name
  | .newLine => "NewLine"

end Abacus
