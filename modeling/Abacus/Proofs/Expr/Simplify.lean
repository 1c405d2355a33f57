import Abacus.Expr.Simplify
import Abacus.Proofs.Evaluation.Invariant

/-!
# Proofs/Expr/Simplify — simplification preserves meaning

An expression simplified in one environment and evaluated in another answers and does exactly what
it would have done unsimplified, as long as the two environments have one context and bind the
constants alike.  Nothing else of the environments need agree: what `simplify` looks at is the
context, which evaluation never changes, and the constants, which no assignment binds
(`invariant_settledBy`).

A fold replaces a subtree by its literal only where the subtree, evaluated in *any* such session,
answers that literal and leaves the session alone; a fold that fails is no fold.  So each fold is
one lemma about a single session (`evalWith_foldUnary`, `evalWith_foldBinary`, `evalWith_foldCall`),
and the rest is congruence.

Simplification also keeps whatever can be said of an expression node by node, such as being well
formed (`Compositional.simplify`).
-/

namespace Abacus

open Evaluation

/-- How many of its first arguments a function does not evaluate: an assignment has a target. -/
def Builtin.targets (f : Builtin) : Nat :=
  if f = .define then 1 else 0

theorem Builtin.targets_of_ne {f : Builtin} (h : f ≠ .define) : f.targets = 0 :=
  if_neg h

namespace Expr

variable {follow : String → Expr → Evaluation Decimal} {env : Environment} {s : Session}

/-! ## What simplification relies on -/

/-- The sessions in which everything that `simplify env` looks at is as it is in `env`. -/
structure SettledBy (env : Environment) (s : Session) : Prop where
  context : s.env.context = env.context
  constants : ∀ name, Environment.isConstant name = true → s.env.get? name = env.get? name

/-- **Evaluation changes nothing that simplification looks at.** -/
theorem invariant_settledBy (env : Environment) : Invariant (SettledBy env) where
  random _ _ h := ⟨h.context, h.constants⟩
  assign s name d hname h := by
    refine ⟨h.context, fun other hother => ?_⟩
    have hne : other ≠ name := by
      rintro rfl
      simp [hname] at hother
    exact (s.env.get?_set_of_ne hne _).trans (h.constants other hother)
  restore s₀ s _ h := by
    refine ⟨(s.env.context_restore _ _).trans h.context, fun other hother => ?_⟩
    have hne : other ≠ Series.indexName := by
      rintro rfl
      simp [Series.isConstant_indexName] at hother
    exact (s.env.get?_restore_of_ne hne _).trans (h.constants other hother)

/-! ## Folds -/

theorem eq_number_of_literal? {e : Expr} {d : Decimal} (h : e.literal? = some d) :
    e = .number d := by
  cases e <;> simp_all [literal?]

theorem eq_map_of_literals? : ∀ {es : List Expr} {ds : List Decimal},
    literals? es = some ds → es = ds.map .number
  | [], ds, h => by
      obtain rfl : [] = ds := by simpa [literals?] using h
      rfl
  | .number d :: es, ds, h => by
      obtain ⟨ds', hds', rfl⟩ := Option.map_eq_some_iff.mp h
      rw [eq_map_of_literals? hds', List.map_cons]

/-- A literal that stands for an answer without effects evaluates to that answer. -/
theorem evalWith_literalOr {e : Expr} {answer : Except EvalError Decimal}
    (h : evalWith follow e s = (answer, s)) :
    evalWith follow (literalOr e answer) s = evalWith follow e s := by
  cases answer with
  | error _ => rfl
  | ok d => rw [h, literalOr, evalWith_number]

theorem evalWith_unary_literal (op : Operator) (x : Decimal) :
    evalWith follow (.unary op (.number x)) s = (op.applySign x, s) := by
  rw [evalWith, bind_apply, evalWith_number]
  rfl

theorem evalWith_binary_literals (op : Operator) (x y : Decimal) :
    evalWith follow (.binary op (.number x) (.number y)) s = (op.apply s.env.context x y, s) := by
  rw [evalWith, bind_apply, evalWith_number]
  simp only [bind_apply, evalWith_number]
  rfl

theorem evalWith_foldUnary (op : Operator) (a : Expr) :
    evalWith follow (foldUnary op a) s = evalWith follow (.unary op a) s := by
  rw [foldUnary]
  split
  · next x hx =>
      obtain rfl := eq_number_of_literal? hx
      exact evalWith_literalOr (evalWith_unary_literal op x)
  · rfl

theorem evalWith_foldBinary (op : Operator) (a b : Expr) :
    evalWith follow (foldBinary s.env.context op a b) s = evalWith follow (.binary op a b) s := by
  rw [foldBinary]
  split
  · next x y hx hy =>
      obtain rfl := eq_number_of_literal? hx
      obtain rfl := eq_number_of_literal? hy
      exact evalWith_literalOr (evalWith_binary_literals op x y)
  · rfl

/-- A call on literals answers what its rule says, and has no effects. -/
theorem evalWith_call_literals {f : Builtin} {ds : List Decimal}
    {answer : Except EvalError Decimal} (h : f.applyTo? s.env.context ds = some answer) :
    evalWith follow (.call f (ds.map .number)) s = (answer, s) := by
  unfold Builtin.applyTo? at h
  split at h
  · next apply x hrule =>
      obtain rfl := Option.some.inj h
      rw [List.map_cons, List.map_nil, evalWith_call_unary hrule, bind_apply, evalWith_number]
      rfl
  · next apply x y hrule =>
      obtain rfl := Option.some.inj h
      rw [List.map_cons, List.map_cons, List.map_nil, evalWith_call_binary hrule]
      simp only [bind_apply, evalWith_number]
      rfl
  · cases h

theorem evalWith_foldCall (f : Builtin) (args : List Expr) :
    evalWith follow (foldCall s.env.context f args) s = evalWith follow (.call f args) s := by
  rw [foldCall]
  split
  · split
    · next answer hanswer =>
        obtain ⟨ds, hds, happly⟩ := Option.bind_eq_some_iff.mp hanswer
        obtain rfl := eq_map_of_literals? hds
        exact evalWith_literalOr (evalWith_call_literals happly)
    · rfl
  · rfl

theorem evalWith_foldConstant (hs : SettledBy env s) (name : String) :
    evalWith follow (foldConstant env name) s = evalWith follow (.var name) s := by
  rw [foldConstant]
  split
  · next hname =>
      split
      · next d hd =>
          have hget : s.env.get? name = some (.number d) := (hs.constants name hname).trans hd
          rw [evalWith_number]
          simp only [evalWith, hget]
      · rfl
  · rfl

/-! ## Congruence -/

/-- Outside assignments every argument is simplified. -/
theorem simplify_call {f : Builtin} (h : f ≠ .define) (args : List Expr) :
    simplify env (.call f args) = foldCall env.context f (simplifyAll env args) := by
  cases f with
  | define => exact absurd rfl h
  | _ =>
    rw [simplify]
    simp

theorem simplifyAll_eq (env : Environment) :
    ∀ es : List Expr, simplifyAll env es = es.map (simplify env)
  | [] => by rw [simplifyAll, List.map_nil]
  | e :: es => by rw [simplifyAll, simplifyAll_eq env es, List.map_cons]

/-- Simplification goes into the arguments that a function evaluates. -/
theorem simplify_call_eq (env : Environment) (f : Builtin) (args : List Expr) :
    simplify env (.call f args) = foldCall env.context f
      (args.take f.targets ++ (args.drop f.targets).map (simplify env)) := by
  by_cases hf : f = .define
  · subst hf
    cases args with
    | nil =>
      rw [simplify, simplifyAll]
      · rfl
      · nofun
    | cons target args =>
      rw [simplify, simplifyAll_eq]
      rfl
  · rw [simplify_call hf, simplifyAll_eq, Builtin.targets_of_ne hf]
    rfl

/-- In a session that settles it, a fold of a call does not show. -/
theorem agreesOn_foldCall (f : Builtin) (args : List Expr) :
    AgreesOn (SettledBy env) (evalWith follow (foldCall env.context f args))
      (evalWith follow (.call f args)) := by
  intro s hs
  rw [← hs.context]
  exact evalWith_foldCall f args

/-- **Simplification does not show in any session that settles it**, if following a binding keeps
such sessions such. -/
theorem agreesOn_simplify (hf : ∀ name e, Keeps (SettledBy env) (follow name e)) (e : Expr) :
    e.Bound → AgreesOn (SettledBy env) (evalWith follow (e.simplify env)) (evalWith follow e) := by
  have hI := invariant_settledBy env
  have hkeeps : ∀ e, Keeps (SettledBy env) (evalWith follow e) := keeps_evalWith hI hf
  induction e using Expr.induction with
  | number d =>
    intro _
    rw [simplify]
    exact AgreesOn.refl _
  | var name =>
    intro _ s hs
    rw [simplify]
    exact evalWith_foldConstant hs name
  | unary op a iha =>
    intro h s hs
    rw [simplify, evalWith_foldUnary, evalWith, evalWith]
    exact AgreesOn.bind_left _ (iha h) s hs
  | binary op a b iha ihb =>
    intro h s hs
    rw [simplify, ← hs.context, evalWith_foldBinary, evalWith, evalWith]
    exact AgreesOn.bind (iha h.1) (hkeeps a) (fun x => AgreesOn.bind_left _ (ihb h.2)) s hs
  | call f args ih =>
    rintro ⟨hlength, hargs⟩
    have ih' : ∀ a ∈ args, AgreesOn (SettledBy env) (evalWith follow (a.simplify env))
        (evalWith follow a) := fun a ha => ih a ha ((allBound_iff args).mp hargs a ha)
    obtain ⟨apply, a, hrule, rfl⟩ | ⟨apply, a, b, hrule, rfl⟩ | ⟨target, a, rfl, rfl⟩ |
      ⟨kind, lower, upper, term, hrule, rfl⟩ | ⟨rfl, rfl⟩ := call_shape hlength
    · rw [simplify_call (by rintro rfl; cases hrule)]
      refine (agreesOn_foldCall f _).trans ?_
      rw [simplifyAll, simplifyAll, evalWith_call_unary hrule, evalWith_call_unary hrule]
      exact AgreesOn.bind_left _ (ih' a (by simp))
    · rw [simplify_call (by rintro rfl; cases hrule)]
      refine (agreesOn_foldCall f _).trans ?_
      rw [simplifyAll, simplifyAll, simplifyAll, evalWith_call_binary hrule,
        evalWith_call_binary hrule]
      exact AgreesOn.bind (ih' a (by simp)) (hkeeps a) fun x =>
        AgreesOn.bind_left _ (ih' b (by simp))
    · rw [simplify]
      refine (agreesOn_foldCall .define _).trans ?_
      rw [simplifyAll, simplifyAll, evalWith_define, evalWith_define]
      exact AgreesOn.bind (AgreesOn.refl _) (Keeps.lift _) fun name =>
        AgreesOn.bind_left _ (ih' a (by simp))
    · rw [simplify_call (by rintro rfl; cases hrule)]
      refine (agreesOn_foldCall f _).trans ?_
      rw [simplifyAll, simplifyAll, simplifyAll, simplifyAll, evalWith_series hrule,
        evalWith_series hrule]
      exact AgreesOn.bind (ih' lower (by simp)) (hkeeps lower) fun x =>
        AgreesOn.bind (ih' upper (by simp)) (hkeeps upper) fun y =>
          Series.agreesOn_evaluate hI (ih' term (by simp)) (hkeeps term) kind x y
    · rw [simplify_call (by decide)]
      exact agreesOn_foldCall .random _

/-- Simplification does not show, however deep bindings are nested. -/
theorem agreesOn_evalWithin_simplify (n : Nat) {e : Expr} (h : e.Bound) :
    AgreesOn (SettledBy env) (evalWithin n (e.simplify env)) (evalWithin n e) := by
  cases n with
  | zero => exact agreesOn_simplify (fun _ _ => Keeps.fail _) e h
  | succ n =>
    exact agreesOn_simplify (fun _ e => keeps_evalWithin (invariant_settledBy env) n e) e h

/-! ## Properties that simplification keeps

A fold puts a literal in the place of a subtree, or leaves the subtree there with its parts
simplified.  So a property that holds of literals and lets parts be replaced survives. -/

/-- **A property that looks at expressions one node at a time**: it holds of literals, and the parts
of an expression that has it have it too, and may be replaced by others that have it. -/
structure Compositional (P : Expr → Prop) : Prop where
  number : ∀ d, P (.number d)
  unary : ∀ {op a}, P (.unary op a) → P a ∧ ∀ a', P a' → P (.unary op a')
  binary : ∀ {op a b}, P (.binary op a b) →
    (P a ∧ P b) ∧ ∀ a' b', P a' → P b' → P (.binary op a' b')
  call : ∀ {f args}, P (.call f args) → (∀ a ∈ args, P a) ∧
    ∀ args' : List Expr, args'.length = args.length → (∀ a ∈ args', P a) → P (.call f args')

theorem compositional_wellFormed : Compositional WellFormed where
  number _ := trivial
  unary h := ⟨h.2, fun _ ha => ⟨h.1, ha⟩⟩
  binary h := ⟨h, fun _ _ ha hb => ⟨ha, hb⟩⟩
  call h := ⟨(allWellFormed_iff _).mp h.2, fun args' hlength hargs =>
    ⟨hlength.trans h.1, (allWellFormed_iff args').mpr hargs⟩⟩

namespace Compositional

variable {P Q : Expr → Prop}

theorem and (hP : Compositional P) (hQ : Compositional Q) :
    Compositional fun e => P e ∧ Q e where
  number d := ⟨hP.number d, hQ.number d⟩
  unary h := by
    obtain ⟨hp, hp'⟩ := hP.unary h.1
    obtain ⟨hq, hq'⟩ := hQ.unary h.2
    exact ⟨⟨hp, hq⟩, fun a' ha => ⟨hp' a' ha.1, hq' a' ha.2⟩⟩
  binary h := by
    obtain ⟨hp, hp'⟩ := hP.binary h.1
    obtain ⟨hq, hq'⟩ := hQ.binary h.2
    exact ⟨⟨⟨hp.1, hq.1⟩, hp.2, hq.2⟩,
      fun a' b' ha hb => ⟨hp' a' b' ha.1 hb.1, hq' a' b' ha.2 hb.2⟩⟩
  call h := by
    obtain ⟨hp, hp'⟩ := hP.call h.1
    obtain ⟨hq, hq'⟩ := hQ.call h.2
    exact ⟨fun a ha => ⟨hp a ha, hq a ha⟩, fun args' hlength hargs =>
      ⟨hp' args' hlength fun a ha => (hargs a ha).1, hq' args' hlength fun a ha => (hargs a ha).2⟩⟩

theorem literalOr (hP : Compositional P) {e : Expr} (h : P e) (answer : Except EvalError Decimal) :
    P (e.literalOr answer) := by
  cases answer with
  | error _ => exact h
  | ok d => exact hP.number d

theorem foldUnary (hP : Compositional P) {op : Operator} {a : Expr} (h : P (.unary op a)) :
    P (Expr.foldUnary op a) := by
  rw [Expr.foldUnary]
  split
  · exact hP.literalOr h _
  · exact h

theorem foldBinary (hP : Compositional P) (c : Context) {op : Operator} {a b : Expr}
    (h : P (.binary op a b)) : P (Expr.foldBinary c op a b) := by
  rw [Expr.foldBinary]
  split
  · exact hP.literalOr h _
  · exact h

theorem foldCall (hP : Compositional P) (c : Context) {f : Builtin} {args : List Expr}
    (h : P (.call f args)) : P (Expr.foldCall c f args) := by
  rw [Expr.foldCall]
  split
  · split
    · exact hP.literalOr h _
    · exact h
  · exact h

theorem foldConstant (hP : Compositional P) (env : Environment) {name : String}
    (h : P (.var name)) : P (Expr.foldConstant env name) := by
  rw [Expr.foldConstant]
  split
  · split
    · exact hP.number _
    · exact h
  · exact h

/-- **Simplification keeps every such property.** -/
theorem simplify (hP : Compositional P) (env : Environment) {e : Expr} :
    P e → P (e.simplify env) := by
  induction e using Expr.induction with
  | number d =>
    intro _
    rw [Expr.simplify]
    exact hP.number d
  | var name =>
    intro h
    rw [Expr.simplify]
    exact hP.foldConstant env h
  | unary op a iha =>
    intro h
    obtain ⟨ha, hreplace⟩ := hP.unary h
    rw [Expr.simplify]
    exact hP.foldUnary (hreplace _ (iha ha))
  | binary op a b iha ihb =>
    intro h
    obtain ⟨⟨ha, hb⟩, hreplace⟩ := hP.binary h
    rw [Expr.simplify]
    exact hP.foldBinary env.context (hreplace _ _ (iha ha) (ihb hb))
  | call f args ih =>
    intro h
    obtain ⟨hargs, hreplace⟩ := hP.call h
    have hsimplified : ∀ a ∈ args, P (a.simplify env) := fun a ha => ih a ha (hargs a ha)
    have hlength : (args.take f.targets ++ (args.drop f.targets).map (Expr.simplify env)).length =
        args.length := by
      rw [List.length_append, List.length_map, ← List.length_append, List.take_append_drop]
    rw [simplify_call_eq]
    refine hP.foldCall env.context (hreplace _ hlength ?_)
    refine List.forall_mem_append.mpr ⟨fun a ha => hargs a (List.mem_of_mem_take ha), ?_⟩
    exact List.forall_mem_map.mpr fun a ha => hsimplified a (List.mem_of_mem_drop ha)

end Compositional

end Expr

end Abacus
