import Abacus.Proofs.Evaluation.Trace
import Abacus.Proofs.Expr.Folding

/-!
# Proofs/Evaluation/Contexts — only divisions, `abs` and powers look at the context

Every function is handed the context of the session, and three of them use it: `Divide`, like the
operator `/`, `abs` and `power`.  An expression that holds none of these `RoundsNowhere`.  Where the
bindings do not either, evaluating it under another context comes to the same answer, the same
bindings and the same source of random numbers; all that differs afterwards is the context that was
there before (`IgnoresContext`).  What can be computed ahead of time is the same as well.
-/

namespace Abacus

open Evaluation

/-! ## What rounds -/

/-- Whether a function looks at the context. -/
def Builtin.rounds : Builtin → Bool
  | .divide => true
  | .abs => true
  | .power => true
  | _ => false

section Rules

variable {f : Builtin}

theorem Operator.apply_context {op : Operator} (h : op ≠ .divide) (c c' : Context)
    (x y : Decimal) : op.apply c x y = op.apply c' x y := by
  cases op with
  | divide => exact absurd rfl h
  | _ => rfl

/-- **A function of one argument that is not `abs` does not look at the context.** -/
theorem Builtin.unary_context {apply : Context → Decimal → Except EvalError Decimal}
    (hrule : f.rule = .unary apply) (hf : f.rounds = false) (c c' : Context) (x : Decimal) :
    apply c x = apply c' x := by
  cases f with
  | abs => cases hf
  | _ => cases hrule <;> rfl

/-- **A function of two arguments that neither divides nor raises to a power does not look at the
context.** -/
theorem Builtin.binary_context {apply : Context → Decimal → Decimal → Except EvalError Decimal}
    (hrule : f.rule = .binary apply) (hf : f.rounds = false) (c c' : Context) (x y : Decimal) :
    apply c x y = apply c' x y := by
  cases f with
  | divide => cases hf
  | power => cases hf
  | _ => cases hrule <;> rfl

end Rules

namespace Expr

mutual

/-- **Nothing in the expression rounds**: it holds no division, no `abs` and no power. -/
def RoundsNowhere : Expr → Prop
  | .number _ => True
  | .var _ => True
  | .unary _ a => RoundsNowhere a
  | .binary op a b => op ≠ .divide ∧ RoundsNowhere a ∧ RoundsNowhere b
  | .call f args => f.rounds = false ∧ AllRoundNowhere args

/-- `RoundsNowhere` for each of a list. -/
def AllRoundNowhere : List Expr → Prop
  | [] => True
  | e :: es => RoundsNowhere e ∧ AllRoundNowhere es

end

theorem allRoundNowhere_iff : ∀ es : List Expr, AllRoundNowhere es ↔ ∀ e ∈ es, RoundsNowhere e
  | [] => by simp [AllRoundNowhere]
  | e :: es => by simp [AllRoundNowhere, allRoundNowhere_iff es]

end Expr

/-- Whatever a variable is bound to rounds nowhere. -/
def Environment.RoundsNowhere (env : Environment) : Prop :=
  env.Binds fun _ e => e.RoundsNowhere

theorem invariant_roundsNowhere : Invariant fun s : Session => s.env.RoundsNowhere :=
  invariant_binds fun _ _ => trivial

/-! ## Computations that do not look at the context -/

/-- The session under another context. -/
def Session.withContext (s : Session) (c : Context) : Session :=
  { s with env := { s.env with context := c } }

theorem Session.restore_withContext (s : Session) (c : Context) (name : String)
    (saved : Option Expr) :
    { s.withContext c with env := (s.withContext c).env.restore name saved } =
      Session.withContext { s with env := s.env.restore name saved } c := by
  cases saved <;> rfl

/-- **Under another context the computation has the same answer**, and leaves the same session but
for that context. -/
def Evaluation.IgnoresContext {α : Type} (x : Evaluation α) : Prop :=
  ∀ s c, s.env.RoundsNowhere → x (s.withContext c) = ((x s).1, (x s).2.withContext c)

namespace Evaluation.IgnoresContext

variable {α β : Type} {x : Evaluation α}

theorem lift (y : Except EvalError α) : IgnoresContext (Evaluation.lift y) :=
  fun _ _ _ => rfl

theorem inContext {g : Context → Except EvalError α} (hg : ∀ c c', g c = g c') :
    IgnoresContext (Evaluation.inContext g) := by
  intro s c _
  exact congrArg (·, s.withContext c) (hg c s.env.context)

theorem bind {g : α → Evaluation β} (hx : IgnoresContext x)
    (hkeeps : Keeps (fun s => s.env.RoundsNowhere) x) (hg : ∀ a, IgnoresContext (g a)) :
    IgnoresContext (x >>= g) := by
  intro s c hs
  have hkept := hkeeps s hs
  rw [bind_apply, bind_apply, hx s c hs]
  generalize x s = answer at hkept
  obtain ⟨e | a, s'⟩ := answer
  · rfl
  · exact hg a s' c hkept

theorem keeping (hx : IgnoresContext x) (name : String) :
    IgnoresContext (Evaluation.keeping name x) := by
  intro s c hs
  simp only [Evaluation.keeping, hx s c hs]
  exact congrArg ((x s).1, ·) (Session.restore_withContext _ c name _)

end Evaluation.IgnoresContext

namespace Series

variable {term : Evaluation Decimal}

/-- **The loop of a series looks at the context no more than its term does.** -/
theorem ignoresContext_run (hterm : IgnoresContext term)
    (hkeeps : Keeps (fun s => s.env.RoundsNowhere) term) (kind : Series)
    (upper index total : Decimal) : IgnoresContext (kind.run term upper index total) := by
  intro s c
  refine rounds (P := fun index total s => s.env.RoundsNowhere →
    kind.run term upper index total (s.withContext c) =
      ((kind.run term upper index total s).1, (kind.run term upper index total s).2.withContext c))
    kind term upper ?_ ?_ ?_ ?_ index total s
  · intro index total s h _
    rw [run_of_not h, run_of_not h]
  · intro index total s e s' h he hs
    have hround := hterm _ c (invariant_index invariant_roundsNowhere hs index)
    rw [← withIndex, he] at hround
    rw [run_of_error h he, run_of_error h hround]
  · intro index total s x e s' h hx he hs
    have hround := hterm _ c (invariant_index invariant_roundsNowhere hs index)
    rw [← withIndex, hx] at hround
    rw [run_of_stop h hx he, run_of_stop h hround he]
  · intro index total s x total' s' h hx htotal ih hs
    have hindex := invariant_index invariant_roundsNowhere hs index
    have hround := hterm _ c hindex
    have hkept := hkeeps _ hindex
    rw [← withIndex, hx] at hround hkept
    rw [run_of_ok h hx htotal, run_of_ok h hround htotal]
    exact ih hkept

theorem ignoresContext_evaluate (hterm : IgnoresContext term)
    (hkeeps : Keeps (fun s => s.env.RoundsNowhere) term) (kind : Series) (lower upper : Decimal) :
    IgnoresContext (kind.evaluate lower upper term) := by
  rw [evaluate]
  split
  · exact (ignoresContext_run hterm hkeeps kind upper lower kind.identity).keeping indexName
  · exact .lift _

end Series

/-! ## Expressions -/

namespace Expr

variable {follow : String → Expr → Evaluation Decimal}

/-- **Evaluating an expression that rounds nowhere does not look at the context**, if following a
binding does not. -/
theorem ignoresContext_evalWith
    (hkeeps : ∀ name e, Keeps (fun s => s.env.RoundsNowhere) (follow name e))
    (hfollow : ∀ name e, e.RoundsNowhere → IgnoresContext (follow name e)) {e : Expr} :
    e.RoundsNowhere → IgnoresContext (evalWith follow e) := by
  have hkept : ∀ e, Keeps (fun s => s.env.RoundsNowhere) (evalWith follow e) :=
    keeps_evalWith invariant_roundsNowhere hkeeps
  induction e using Expr.induction with
  | number d => exact fun _ => .lift (.ok d)
  | var name =>
    intro _ s c hs
    have hget : (s.withContext c).env.get? name = s.env.get? name := rfl
    simp only [evalWith, hget]
    split
    · rfl
    · rfl
    · next e _ he => exact hfollow name e (hs name e he) s c hs
  | unary op a iha => exact fun h => (iha h).bind (hkept a) fun x => .lift _
  | binary op a b iha ihb =>
    rintro ⟨hop, ha, hb⟩
    exact (iha ha).bind (hkept a) fun x => (ihb hb).bind (hkept b) fun y =>
      .inContext fun c c' => Operator.apply_context hop c c' x y
  | call f args ih =>
    rintro ⟨hf, hargs⟩
    have ih' : ∀ a ∈ args, IgnoresContext (evalWith follow a) := fun a ha =>
      ih a ha ((allRoundNowhere_iff args).mp hargs a ha)
    by_cases hlength : args.length = f.arity
    · obtain ⟨apply, a, hrule, rfl⟩ | ⟨apply, a, b, hrule, rfl⟩ | ⟨target, a, rfl, rfl⟩ |
        ⟨kind, lower, upper, term, hrule, rfl⟩ | ⟨rfl, rfl⟩ := call_shape hlength
      · rw [evalWith_call_unary hrule]
        exact (ih' a (by simp)).bind (hkept a) fun x =>
          .inContext fun c c' => Builtin.unary_context hrule hf c c' x
      · rw [evalWith_call_binary hrule]
        exact (ih' a (by simp)).bind (hkept a) fun x => (ih' b (by simp)).bind (hkept b) fun y =>
          .inContext fun c c' => Builtin.binary_context hrule hf c c' x y
      · rw [evalWith_define]
        exact IgnoresContext.bind (.lift _) (Keeps.lift _) fun name =>
          (ih' a (by simp)).bind (hkept a) fun x _ _ _ => rfl
      · rw [evalWith_series hrule]
        exact (ih' lower (by simp)).bind (hkept lower) fun x =>
          (ih' upper (by simp)).bind (hkept upper) fun y =>
            kind.ignoresContext_evaluate (ih' term (by simp)) (hkept term) x y
      · exact fun _ _ _ => rfl
    · rw [evalWith_call_of_length_ne hlength]
      exact .lift _

theorem ignoresContext_evalWithin : ∀ (n : Nat) {e : Expr}, e.RoundsNowhere →
    IgnoresContext (evalWithin n e)
  | 0, _, h => ignoresContext_evalWith (fun _ _ => Keeps.fail _) (fun _ _ _ => .lift _) h
  | n + 1, _, h =>
    ignoresContext_evalWith (fun _ e => keeps_evalWithin invariant_roundsNowhere n e)
      (fun _ _ he => ignoresContext_evalWithin n he) h

/-! ## Ahead of time -/

theorem foldBinary_context {op : Operator} (h : op ≠ .divide) (c c' : Context) (a b : Expr) :
    foldBinary c op a b = foldBinary c' op a b := by
  simp only [foldBinary, Operator.apply_context h c c']

theorem applyTo?_context {f : Builtin} (h : f.rounds = false) (c c' : Context)
    (values : List Decimal) : f.applyTo? c values = f.applyTo? c' values := by
  unfold Builtin.applyTo?
  split
  · next hrule => rw [Builtin.unary_context hrule h c c']
  · next hrule => rw [Builtin.binary_context hrule h c c']
  · rfl

theorem foldCall_context {f : Builtin} (h : f.rounds = false) (c c' : Context)
    (args : List Expr) : foldCall c f args = foldCall c' f args := by
  rw [foldCall, foldCall, funext (applyTo?_context h c c')]

/-- **What rounds nowhere is simplified alike under every context.** -/
theorem simplify_withContext (env : Environment) (c : Context) {e : Expr} :
    e.RoundsNowhere → e.simplify { env with context := c } = e.simplify env := by
  induction e using Expr.induction with
  | number d => exact fun _ => rfl
  | var name => exact fun _ => rfl
  | unary op a iha =>
    intro h
    rw [simplify, simplify, iha h]
  | binary op a b iha ihb =>
    rintro ⟨hop, ha, hb⟩
    rw [simplify, simplify, iha ha, ihb hb, foldBinary_context hop]
  | call f args ih =>
    rintro ⟨hf, hargs⟩
    have hmap : (args.drop f.targets).map (simplify { env with context := c }) =
        (args.drop f.targets).map (simplify env) := List.map_congr_left fun a ha =>
      ih a (List.mem_of_mem_drop ha)
        ((allRoundNowhere_iff args).mp hargs a (List.mem_of_mem_drop ha))
    rw [simplify_call_eq, simplify_call_eq, hmap, foldCall_context hf]

/-- **Precision and rounding show only where something rounds.**  If neither an expression nor what
variables are bound to holds a division, `abs` or a power, then under any two contexts it has the
same answer, be it a number or an error, leaves the same bindings, draws the same random numbers,
and is simplified to the same expression, or stops the program that asks for it under both. -/
theorem eval_simplify_context {e : Expr} (he : e.RoundsNowhere) {s : Session}
    (hs : s.env.RoundsNowhere) (c₁ c₂ : Context) :
    (e.eval (s.withContext c₁)).1 = (e.eval (s.withContext c₂)).1 ∧
    (e.eval (s.withContext c₁)).2.env.bindings = (e.eval (s.withContext c₂)).2.env.bindings ∧
    (e.eval (s.withContext c₁)).2.random = (e.eval (s.withContext c₂)).2.random ∧
    e.simplify (s.withContext c₁).env = e.simplify (s.withContext c₂).env ∧
    (e.simplifyIn (s.withContext c₁)).1 = (e.simplifyIn (s.withContext c₂)).1 := by
  have heval : ∀ c, e.eval (s.withContext c) = ((e.eval s).1, (e.eval s).2.withContext c) :=
    fun c => ignoresContext_evalWithin (nestingLimit s.env) he s c hs
  have hsimplify : ∀ c, e.simplify (s.withContext c).env = e.simplify s.env :=
    fun c => simplify_withContext s.env c he
  have hsame := (hsimplify c₁).trans (hsimplify c₂).symm
  rw [heval c₁, heval c₂]
  exact ⟨rfl, rfl, rfl, hsame, simplifyIn_congr hsame⟩

/-- `sum(1, 3, i * 0.125) % y`. -/
def remainderOfSum : Expr :=
  .binary .modulo
    (.call .sum [.number .one, .number ⟨3, 0⟩, .binary .times (.var "i") (.number ⟨125, 3⟩)])
    (.var "y")

/-- A session that starts with a variable bound to `2.5 - 2.25`. -/
def sessionWithDifference : Session :=
  ⟨(Environment.initial default).set "y" (.binary .minus (.number ⟨25, 1⟩) (.number ⟨225, 2⟩)),
    mkStdGen 0⟩

/-- Nothing in a sum of products and its remainder shows that only one digit is to be kept. -/
theorem eval_simplify_context_remainderOfSum :
    remainderOfSum.RoundsNowhere ∧ sessionWithDifference.env.RoundsNowhere ∧
    (remainderOfSum.eval (sessionWithDifference.withContext ⟨1, .down⟩)).1 =
      (remainderOfSum.eval (sessionWithDifference.withContext default)).1 ∧
    remainderOfSum.simplify (sessionWithDifference.withContext ⟨1, .down⟩).env =
      remainderOfSum.simplify (sessionWithDifference.withContext default).env := by
  have he : remainderOfSum.RoundsNowhere :=
    ⟨by decide, ⟨rfl, trivial, trivial, ⟨by decide, trivial, trivial⟩, trivial⟩, trivial⟩
  have hs : sessionWithDifference.env.RoundsNowhere :=
    (Environment.binds_initial (fun _ _ => trivial) default).set ⟨by decide, trivial, trivial⟩
  obtain ⟨hanswer, -, -, hsimplify, -⟩ := eval_simplify_context he hs ⟨1, .down⟩ default
  exact ⟨he, hs, hanswer, hsimplify⟩

end Expr

end Abacus
