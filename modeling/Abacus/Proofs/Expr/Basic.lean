import Abacus.Expr.Basic

/-!
# Proofs/Expr/Basic — induction over expressions, and calls with the right number of arguments

An expression holds lists of expressions, so its induction principle says what the arguments of a
call share: `Expr.induction` hands over the hypothesis for every member of the list.

`Bound` is the half of `WellFormed` that a call site enforces: a call has as many arguments as its
function takes.  It says nothing about signs, so `*x` is `Bound` and not `WellFormed`.
-/

namespace Abacus.Expr

/-- **Induction over expressions**, with a hypothesis for each argument of a call. -/
@[elab_as_elim]
theorem induction {P : Expr → Prop} (number : ∀ d, P (.number d)) (var : ∀ name, P (.var name))
    (unary : ∀ op a, P a → P (.unary op a))
    (binary : ∀ op a b, P a → P b → P (.binary op a b))
    (call : ∀ f args, (∀ a ∈ args, P a) → P (.call f args)) : ∀ e, P e
  | .number d => number d
  | .var name => var name
  | .unary op a => unary op a (induction number var unary binary call a)
  | .binary op a b =>
    binary op a b (induction number var unary binary call a)
      (induction number var unary binary call b)
  | .call f args => call f args fun a _ => induction number var unary binary call a

mutual

/-- Every call has as many arguments as its function takes. -/
def Bound : Expr → Prop
  | .number _ => True
  | .var _ => True
  | .unary _ a => Bound a
  | .binary _ a b => Bound a ∧ Bound b
  | .call f args => args.length = f.arity ∧ AllBound args

/-- `Bound` for each of a list. -/
def AllBound : List Expr → Prop
  | [] => True
  | e :: es => Bound e ∧ AllBound es

end

theorem allWellFormed_iff : ∀ es : List Expr, AllWellFormed es ↔ ∀ e ∈ es, WellFormed e
  | [] => by simp [AllWellFormed]
  | e :: es => by simp [AllWellFormed, allWellFormed_iff es]

theorem allBound_iff : ∀ es : List Expr, AllBound es ↔ ∀ e ∈ es, Bound e
  | [] => by simp [AllBound]
  | e :: es => by simp [AllBound, allBound_iff es]

end Abacus.Expr
