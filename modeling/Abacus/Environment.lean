import Abacus.Context
import Abacus.Expr.Basic

/-!
# Environment — the bindings of variables

An environment binds names to expressions and holds the context of inexact operations. `pi` and `e`
are bound from the start and are constants: a program cannot assign to them.

Bindings keep the order in which their names came up, and a new value takes the place of the old one.
-/

namespace Abacus

/-- Names and what they are bound to, each name once. -/
abbrev Bindings : Type :=
  List (String × Expr)

namespace Bindings

/-- What a name is bound to. -/
def get? : Bindings → String → Option Expr
  | [], _ => none
  | (key, e) :: rest, name => if key = name then some e else get? rest name

/-- Binds a name, in the place of its old binding if it has one. -/
def set : Bindings → String → Expr → Bindings
  | [], name, e => [(name, e)]
  | (key, old) :: rest, name, e =>
    if key = name then (key, e) :: rest else (key, old) :: set rest name e

/-- Unbinds a name. -/
def erase (bs : Bindings) (name : String) : Bindings :=
  bs.filter fun b => b.1 ≠ name

end Bindings

/-- The bindings of variables, and the context of inexact operations. -/
structure Environment where
  bindings : Bindings
  context : Context

namespace Environment

/-- The value of `pi`. -/
def pi : Decimal := ⟨3141592653589793, 15⟩

/-- The value of `e`. -/
def e : Decimal := ⟨2718281828459045, 15⟩

/-- Whether a name is one of the constants. -/
def isConstant (name : String) : Bool :=
  name == "pi" || name == "e"

/-- The environment in which a program starts: only the constants are bound. -/
def initial (c : Context) : Environment :=
  ⟨[("pi", .number pi), ("e", .number e)], c⟩

/-- What a name is bound to. -/
def get? (env : Environment) (name : String) : Option Expr :=
  env.bindings.get? name

/-- Binds a name. -/
def set (env : Environment) (name : String) (e : Expr) : Environment :=
  { env with bindings := env.bindings.set name e }

/-- Unbinds a name. -/
def erase (env : Environment) (name : String) : Environment :=
  { env with bindings := env.bindings.erase name }

/-- Gives a name back the binding that it had, or none if it had none. -/
def restore (env : Environment) (name : String) : Option Expr → Environment
  | some e => env.set name e
  | none => env.erase name

end Environment

end Abacus
