import Abacus.Builtin.Rule
import Abacus.Environment

/-!
# Evaluation — the value of an expression

Evaluating an expression reads and changes a `Session`, the environment and the source of random
numbers, and answers a number or says why there is none. Whatever it changed before it failed stays
changed.

The recursion is on the expression. The one step that leaves the expression is a variable bound to
something other than a literal: its binding is evaluated in its place. `evalWith` leaves that step
open, and `evalWithin` closes it for a given nesting of bindings. Bindings may go round in a cycle, and
an assignment or a failure may break the cycle after any number of rounds, so `eval` allows for an
ample nesting before it calls a cycle endless. An environment whose bindings do not refer to each other
in a cycle never needs more nesting than it has bindings, and `eval` allows for all of those as well.
-/

namespace Abacus

/-- What evaluation reads and changes. -/
structure Session where
  env : Environment
  random : StdGen

/-- The session in which a program starts. -/
def Session.initial (c : Context) (random : StdGen) : Session :=
  ⟨Environment.initial c, random⟩

/-- A computation that answers a value or an error, and changes the session either way. -/
def Evaluation (α : Type) : Type :=
  Session → Except EvalError α × Session

namespace Evaluation

/-- Answers `a` and changes nothing. -/
@[inline] protected def pure {α : Type} (a : α) : Evaluation α :=
  fun s => (.ok a, s)

/-- One computation after another; a failing one is the last. -/
@[inline] protected def bind {α β : Type} (x : Evaluation α) (f : α → Evaluation β) :
    Evaluation β := fun s =>
  match x s with
  | (.ok a, s) => f a s
  | (.error e, s) => (.error e, s)

instance : Monad Evaluation where
  pure := Evaluation.pure
  bind := Evaluation.bind

/-- Fails and changes nothing. -/
def fail {α : Type} (e : EvalError) : Evaluation α :=
  fun s => (.error e, s)

/-- An answer that does not look at the session. -/
def lift {α : Type} (x : Except EvalError α) : Evaluation α :=
  fun s => (x, s)

/-- An answer that looks only at the context of inexact operations. -/
def inContext {α : Type} (f : Context → Except EvalError α) : Evaluation α :=
  fun s => (f s.env.context, s)

/-- Binds a name. -/
def assign (name : String) (e : Expr) : Evaluation Unit :=
  fun s => (.ok (), { s with env := s.env.set name e })

/-- Runs a computation and then gives `name` back the binding that it had before, whether the
computation failed or not. -/
def keeping {α : Type} (name : String) (x : Evaluation α) : Evaluation α := fun s =>
  let saved := s.env.get? name
  match x s with
  | (answer, s) => (answer, { s with env := s.env.restore name saved })

/-- A random number, at least zero and below one. -/
def draw : Evaluation Decimal := fun s =>
  let (n, random) := randNat s.random 0 (twoTo 53 - 1)
  (Decimal.ofReal (Float.ofNat n / Float.ofNat (twoTo 53)), { s with random })

end Evaluation

/-! ## Series -/

namespace Series

/-- The variable that counts the terms of a series. -/
def indexName : String := "i"

/-- How many terms are left, from `index` up to `upper`. -/
def remaining (index upper : Decimal) : Nat :=
  ((upper.toRat - index.toRat).floor + 1).toNat

/-- **Counting on leaves one term fewer.** -/
theorem remaining_eq_succ {index upper : Decimal} (h : index.atMost upper = true) :
    remaining index upper = remaining index.next upper + 1 := by
  have hle : 0 ≤ (upper.toRat - index.toRat).floor :=
    Rat.le_floor_iff.mpr (Rat.le_iff_sub_nonneg _ _ |>.mp (Decimal.atMost_iff.mp h))
  have hnext : upper.toRat - index.next.toRat = upper.toRat - index.toRat - 1 := by
    rw [Decimal.toRat_next]
    grind
  rw [remaining, remaining, hnext, Rat.floor_sub_one]
  omega

theorem remaining_next_lt {index upper : Decimal} (h : index.atMost upper = true) :
    remaining index.next upper < remaining index upper := by
  rw [remaining_eq_succ h]
  exact Nat.lt_succ_self _

/-- The total with the term for `index`. The index is bound anew for each term. -/
def takeIn (kind : Series) (term : Evaluation Decimal) (index total : Decimal) :
    Evaluation Decimal := fun s =>
  match term { s with env := s.env.set indexName (.number index) } with
  | (.ok x, s) => (kind.combine total x, s)
  | (.error e, s) => (.error e, s)

/-- Adds the terms for `index`, `index + 1`, … up to `upper` to the total. -/
def run (kind : Series) (term : Evaluation Decimal) (upper index total : Decimal) :
    Evaluation Decimal := fun s =>
  if h : index.atMost upper = true then
    have := remaining_next_lt h
    match takeIn kind term index total s with
    | (.ok total, s) => run kind term upper index.next total s
    | (.error e, s) => (.error e, s)
  else (.ok total, s)
termination_by remaining index upper

/-- **The series of `term` between two bounds.** The binding of the index is given back at the
end. -/
def evaluate (kind : Series) (lower upper : Decimal) (term : Evaluation Decimal) :
    Evaluation Decimal :=
  if lower.atMost upper then
    Evaluation.keeping indexName (run kind term upper lower kind.identity)
  else
    Evaluation.fail (.invalidBounds lower upper)

end Series

/-! ## Expressions -/

namespace Expr

/-- The variable that an assignment may bind. -/
def target? : Expr → Except EvalError String
  | .var name =>
    if Environment.isConstant name then .error (.constantRedefinition name) else .ok name
  | target => .error (.invalidTarget target)

/-- **The value of an expression**, given what to do with the expression that a variable is bound
to. -/
def evalWith (follow : String → Expr → Evaluation Decimal) : Expr → Evaluation Decimal
  | .number d => pure d
  | .var name => fun s =>
    match s.env.get? name with
    | none => (.error (.unknownVariable name), s)
    | some (.number d) => (.ok d, s)
    | some e => follow name e s
  | .unary op a => do
    let x ← evalWith follow a
    Evaluation.lift (op.applySign x)
  | .binary op a b => do
    let x ← evalWith follow a
    let y ← evalWith follow b
    Evaluation.inContext fun c => op.apply c x y
  | .call f args =>
    match f.rule, args with
    | .unary apply, [a] => do
      let x ← evalWith follow a
      Evaluation.inContext fun c => apply c x
    | .binary apply, [a, b] => do
      let x ← evalWith follow a
      let y ← evalWith follow b
      Evaluation.inContext fun c => apply c x y
    | .assignment, [target, a] => do
      let name ← Evaluation.lift target.target?
      let x ← evalWith follow a
      Evaluation.assign name (.number x)
      pure x
    | .series kind, [lower, upper, term] => do
      let x ← evalWith follow lower
      let y ← evalWith follow upper
      kind.evaluate x y (evalWith follow term)
    | .random, [] => Evaluation.draw
    | _, _ => Evaluation.fail (.arityMismatch f args)

/-- The value of an expression, with bindings nested at most `n` deep. -/
def evalWithin : Nat → Expr → Evaluation Decimal
  | 0 => evalWith fun name _ => Evaluation.fail (.circularBinding name)
  | n + 1 => evalWith fun _ e => evalWithin n e

/-- A nesting of bindings that a cycle may reach before it counts as endless. -/
def ampleNesting : Nat := 1000000

/-- How deep bindings may be nested. -/
def nestingLimit (env : Environment) : Nat :=
  ampleNesting + env.bindings.length

/-- **The value of an expression in a session.** -/
def eval (e : Expr) : Evaluation Decimal := fun s =>
  evalWithin (nestingLimit s.env) e s

end Expr

end Abacus
