import Abacus.Expr.Basic
import Abacus.Decimal.Text

/-!
# Expr/Printer — the input form of an expression

`write` puts every operator and every negative literal in parentheses, so that reading the text back
needs no rule of precedence.
-/

namespace Abacus.Expr

/-- Texts with a comma and a blank between them. -/
def joinCommas : List (List Char) → List Char
  | [] => []
  | [t] => t
  | t :: ts => t ++ ',' :: ' ' :: joinCommas ts

mutual

/-- **The input form of an expression.** -/
def write : Expr → List Char
  | .number d => if d.isNegative then '(' :: d.write ++ [')'] else d.write
  | .var name => name.toList
  | .unary op a => '(' :: op.symbol :: write a ++ [')']
  | .binary op a b => '(' :: write a ++ ' ' :: op.symbol :: ' ' :: write b ++ [')']
  | .call f args => f.name.toList ++ '(' :: joinCommas (writeAll args) ++ [')']

/-- The input forms of a list of expressions. -/
def writeAll : List Expr → List (List Char)
  | [] => []
  | e :: es => write e :: writeAll es

end

/-- The text of an expression's input form. -/
def text (e : Expr) : String :=
  String.ofList (write e)

end Abacus.Expr
