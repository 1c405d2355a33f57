import Abacus.Evaluation

/-!
# Expr/Simplify — computing ahead of time

`simplify` replaces constants by their values, and operators and exact functions on literals by their
results. What would fail is left as it is, so that it fails when it is evaluated; and the target of an
assignment is left alone, because it is a name and not a value.

The program has the evaluator compute the results, in the session at hand: `simplifyIn`. Where the
evaluator stops the program, nothing is left to put in the place of a node. That aside it gives what
`simplify` says, and gives the session back as it was.
-/

namespace Abacus.Expr

/-! ## The simplified expression -/

/-- The literal of an answer, or `e` if there is none. -/
def literalOr (e : Expr) : Except EvalError Decimal → Expr
  | .ok d => .number d
  | .error _ => e

/-- An operator on one operand, computed if that is a literal. -/
def foldUnary (op : Operator) (a : Expr) : Expr :=
  match a.literal? with
  | some x => literalOr (.unary op a) (op.applySign x)
  | none => .unary op a

/-- An operator on two operands, computed if both are literals. -/
def foldBinary (c : Context) (op : Operator) (a b : Expr) : Expr :=
  match a.literal?, b.literal? with
  | some x, some y => literalOr (.binary op a b) (op.apply c x y)
  | _, _ => .binary op a b

/-- A call, computed if its function allows it and all arguments are literals. -/
def foldCall (c : Context) (f : Builtin) (args : List Expr) : Expr :=
  if f.folds then
    match (literals? args).bind (f.applyTo? c) with
    | some answer => literalOr (.call f args) answer
    | none => .call f args
  else .call f args

/-- A variable, or its value if it is a constant bound to a literal. -/
def foldConstant (env : Environment) (name : String) : Expr :=
  if Environment.isConstant name then
    match env.get? name with
    | some (.number d) => .number d
    | _ => .var name
  else .var name

mutual

/-- **An expression of the same value, with what can be computed ahead of time computed.** -/
def simplify (env : Environment) : Expr → Expr
  | .number d => .number d
  | .var name => foldConstant env name
  | .unary op a => foldUnary op (simplify env a)
  | .binary op a b => foldBinary env.context op (simplify env a) (simplify env b)
  | .call .define (target :: args) =>
    foldCall env.context .define (target :: simplifyAll env args)
  | .call f args => foldCall env.context f (simplifyAll env args)

/-- `simplify` for each of a list. -/
def simplifyAll (env : Environment) : List Expr → List Expr
  | [] => []
  | e :: es => simplify env e :: simplifyAll env es

end

/-! ## Simplifying in a session -/

/-- An operator on literals, or a call of a folding function on literals. -/
def isReady : Expr → Bool
  | .number _ => false
  | .var _ => false
  | .unary _ a => a.literal?.isSome
  | .binary _ a b => a.literal?.isSome && b.literal?.isSome
  | .call f args => f.folds && (literals? args).isSome

/-- A node, or the literal that the evaluator answers for it. -/
def foldIn (e : Expr) : Evaluation Expr := fun s =>
  if e.isReady then
    match e.eval s with
    | (.ok d, s) => (.ok (.number d), s)
    | (.error .stopped, s) => (.error .stopped, s)
    | (.error _, s) => (.ok e, s)
  else (.ok e, s)

mutual

/-- **Simplification as the program does it**, from part to part in one session. -/
def simplifyIn : Expr → Evaluation Expr
  | .number d => pure (.number d)
  | .var name => fun s => (.ok (foldConstant s.env name), s)
  | .unary op a => do
    let a ← simplifyIn a
    foldIn (.unary op a)
  | .binary op a b => do
    let a ← simplifyIn a
    let b ← simplifyIn b
    foldIn (.binary op a b)
  | .call f args =>
    match f, args with
    | .define, target :: args => do
      let args ← simplifyAllIn args
      foldIn (.call .define (target :: args))
    | f, args => do
      let args ← simplifyAllIn args
      foldIn (.call f args)

/-- `simplifyIn` for each of a list, one after the other. -/
def simplifyAllIn : List Expr → Evaluation (List Expr)
  | [] => pure []
  | e :: es => do
    let e ← simplifyIn e
    let es ← simplifyAllIn es
    pure (e :: es)

end

end Abacus.Expr
