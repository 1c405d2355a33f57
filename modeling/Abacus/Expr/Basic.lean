import Abacus.Builtin.Basic
import Abacus.Decimal.Order

/-!
# Expr/Basic — expressions

An expression is a literal, a variable, an operator on one or two operands, or a call. A call holds a
list of arguments of any length; the expressions whose calls have as many arguments as their function
takes, and whose signs are `+` and `-`, are the `WellFormed` ones.
-/

namespace Abacus

/-- The arithmetic operators. -/
inductive Operator where
  | plus
  | minus
  | times
  | divide
  | modulo
deriving DecidableEq

/-- The character that writes an operator. -/
def Operator.symbol : Operator → Char
  | .plus => '+'
  | .minus => '-'
  | .times => '*'
  | .divide => '/'
  | .modulo => '%'

/-- An expression of the language. -/
inductive Expr where
  /-- A literal. -/
  | number (value : Decimal)
  /-- A variable, by name. -/
  | var (name : String)
  /-- An operator in front of its operand. -/
  | unary (op : Operator) (operand : Expr)
  /-- An operator between its operands. -/
  | binary (op : Operator) (lhs rhs : Expr)
  /-- A call of a function. -/
  | call (f : Builtin) (args : List Expr)

namespace Expr

/-- The literal that an expression is, if it is one. -/
def literal? : Expr → Option Decimal
  | .number d => some d
  | _ => none

/-- The literals that the expressions are, if they all are. -/
def literals? : List Expr → Option (List Decimal)
  | [] => some []
  | .number d :: es => (literals? es).map (d :: ·)
  | _ :: _ => none

/-- Whether an operator may stand in front of an operand. -/
def IsSign (op : Operator) : Prop :=
  op = .plus ∨ op = .minus

mutual

/-- Every call has as many arguments as its function takes, and only signs stand in front of
operands. -/
def WellFormed : Expr → Prop
  | .number _ => True
  | .var _ => True
  | .unary op a => IsSign op ∧ WellFormed a
  | .binary _ a b => WellFormed a ∧ WellFormed b
  | .call f args => args.length = f.arity ∧ AllWellFormed args

/-- `WellFormed` for each of a list. -/
def AllWellFormed : List Expr → Prop
  | [] => True
  | e :: es => WellFormed e ∧ AllWellFormed es

end

mutual

/-- Whether two expressions are the same when literals are compared by value. -/
def equal : Expr → Expr → Bool
  | .number a, .number b => Decimal.equal a b
  | .var s, .var t => s == t
  | .unary op a, .unary op' a' => op == op' && equal a a'
  | .binary op a b, .binary op' a' b' => op == op' && equal a a' && equal b b'
  | .call f args, .call f' args' => f == f' && equalAll args args'
  | _, _ => false

/-- `equal` for each of two lists of one length. -/
def equalAll : List Expr → List Expr → Bool
  | [], [] => true
  | a :: as, b :: bs => equal a b && equalAll as bs
  | _, _ => false

end

end Expr

end Abacus
