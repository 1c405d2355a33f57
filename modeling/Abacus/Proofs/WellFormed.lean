import Abacus.Proofs.Evaluation.Failure
import Abacus.Proofs.Expr.RoundTrip
import Abacus.Proofs.Expr.Simplify
import Abacus.Proofs.Session

/-!
# Proofs/WellFormed — programs have no malformed expressions

An operator that is no sign may not stand in front of an operand, and a call must have as many
arguments as its function takes; evaluation fails on an expression that breaks either rule.  The
`WellFormed` expressions are those that break none (`faults_eq_nil_iff`), and a program cannot get at
any other: the parser builds well-formed expressions, simplification keeps them so, and evaluation
binds only literals.  So no program fails because of how its expressions are built
(`wellFormed_throughout`).
-/

namespace Abacus

open Evaluation

/-! ## Well-formed expressions -/

namespace Expr

/-- **An expression is well formed when nothing is wrong with its shape.** -/
theorem faults_eq_nil_iff {e : Expr} : e.faults = [] ↔ e.WellFormed := by
  induction e using Expr.induction with
  | number d => exact iff_of_true rfl trivial
  | var name => exact iff_of_true rfl trivial
  | unary op a iha =>
    rw [faults, WellFormed]
    by_cases hop : IsSign op
    · rw [if_pos hop, iha, and_iff_right hop]
    · rw [if_neg hop]
      exact iff_of_false (List.cons_ne_nil _ _) fun h => hop h.1
  | binary op a b iha ihb => rw [faults, WellFormed, List.append_eq_nil_iff, iha, ihb]
  | call f args ih =>
    rw [faults, WellFormed, allWellFormed_iff, faultsAll_eq]
    by_cases hlength : args.length = f.arity
    · rw [if_pos hlength, List.flatMap_eq_nil_iff, and_iff_right hlength]
      exact forall₂_congr ih
    · rw [if_neg hlength]
      exact iff_of_false (List.cons_ne_nil _ _) fun h => hlength h.1

/-- A well-formed call has every argument that its function looks at. -/
theorem WellFormed.exists_argument {f : Builtin} {args : List Expr} (h : (call f args).WellFormed)
    {k : Nat} (hk : k < f.rule.arity) : ∃ a, args[k]? = some a ∧ a.WellFormed := by
  have hlength : k < args.length := by rwa [h.1, ← f.rule_arity]
  exact ⟨args[k], List.getElem?_eq_getElem hlength,
    (allWellFormed_iff args).mp h.2 _ (List.getElem_mem hlength)⟩

end Expr

/-- Every binding is well formed. -/
def Environment.WellFormed (env : Environment) : Prop :=
  env.Binds fun _ e => e.WellFormed

theorem invariant_wellFormed : Invariant fun s : Session => s.env.WellFormed :=
  invariant_binds fun _ _ => trivial

theorem Environment.wellFormed_initial (c : Context) : (Environment.initial c).WellFormed :=
  Environment.binds_initial (fun _ _ => trivial) c

/-! ## Evaluating them -/

/-- A failure that is not in the shape of an expression. -/
def EvalError.NotOfShape (error : EvalError) : Prop :=
  ¬ error.OfShape

theorem EvalError.OfValues.notOfShape {error : EvalError} (h : error.OfValues) :
    error.NotOfShape := by
  intro hshape
  cases error with
  | unsupportedOperator op => exact h
  | arityMismatch f args => exact h
  | _ => exact hshape

namespace Expr

variable {follow : String → Expr → Evaluation Decimal}

/-- A well-formed expression does not fail for its shape, if following a well-formed binding does
not. -/
theorem notOfShape_evalWith
    (hkeeps : ∀ name e, Keeps (fun s => s.env.WellFormed) (follow name e))
    (hfollow : ∀ name bound, bound.WellFormed →
      FailsOnly (fun s => s.env.WellFormed) EvalError.NotOfShape (follow name bound))
    {e : Expr} (h : e.WellFormed) :
    FailsOnly (fun s => s.env.WellFormed) EvalError.NotOfShape (evalWith follow e) := by
  refine failsOnly_evalWith invariant_wellFormed hkeeps (fun _ => EvalError.OfValues.notOfShape)
    ?_ ?_
  · rw [faults_eq_nil_iff.mpr h]
    exact fun _ hfault => nomatch hfault
  · exact fun name _ s bound hs hget _ => hfollow name bound (hs name bound hget) s hs

theorem notOfShape_evalWithin (n : Nat) : ∀ {e : Expr}, e.WellFormed →
    FailsOnly (fun s => s.env.WellFormed) EvalError.NotOfShape (evalWithin n e) := by
  induction n with
  | zero =>
    intro e h
    rw [evalWithin]
    refine notOfShape_evalWith (fun _ _ => Keeps.fail _) ?_ h
    exact fun _ _ _ _ _ hshape => hshape
  | succ n ih =>
    intro e h
    rw [evalWithin]
    exact notOfShape_evalWith (fun _ e => keeps_evalWithin invariant_wellFormed n e)
      (fun _ _ hbound => ih hbound) h

/-- **A well-formed expression does not fail for its shape** where all bindings are well formed. -/
theorem notOfShape_eval {e : Expr} (h : e.WellFormed) :
    FailsOnly (fun s => s.env.WellFormed) EvalError.NotOfShape e.eval :=
  fun s hs => notOfShape_evalWithin (nestingLimit s.env) h s hs

end Expr

/-! ## Programs -/

theorem wellFormed_of_parseProgram {source : String} {es : List Expr}
    (h : parseProgram source = .ok es) : ∀ e ∈ es, e.WellFormed :=
  fun e he => (readable_of_parseProgram h e he).1

/-- Statements fail for what one of them fails for. -/
theorem failsOnly_runStatements {I : Session → Prop} {P : EvalError → Prop} (hI : Invariant I) :
    ∀ {es : List Expr}, (∀ e ∈ es, FailsOnly I P e.eval) → FailsOnly I P (runStatements es)
  | [], _ => fun _ _ => trivial
  | [e], h => by
    rw [runStatements]
    exact (h e List.mem_cons_self).bind (Expr.keeps_eval hI e) fun _ _ _ => trivial
  | e :: e' :: es, h => by
    obtain ⟨he, hes⟩ := List.forall_mem_cons.mp h
    rw [runStatements_cons e (List.cons_ne_nil e' es)]
    exact he.bind (Expr.keeps_eval hI e) fun _ => failsOnly_runStatements hI hes

/-- A source text does not fail for the shape of its expressions, where all bindings are well
formed. -/
theorem runSource_ne_ofShape (source : String) {s : Session} (hs : s.env.WellFormed)
    {error : EvalError} (herror : error.OfShape) :
    (runSource source s).1 ≠ .error (.evaluation error) := by
  intro h
  cases hparse : parseProgram source with
  | error error =>
    rw [runSource, hparse] at h
    cases h
  | ok es =>
    have hfails : FailsWith EvalError.NotOfShape (runStatements es s).1 :=
      failsOnly_runStatements invariant_wellFormed
        (fun e he => Expr.notOfShape_eval (wellFormed_of_parseProgram hparse e he)) s hs
    rw [runSource_of_parseProgram hparse] at h
    generalize runStatements es s = result at hfails h
    obtain ⟨error' | x, s'⟩ := result
    · cases h
      exact hfails herror
    · cases h

/-- **No program has a malformed expression.**  What the parser answers is well formed: the name of
each function is in the table and each call has as many arguments as its function takes, every one
that it looks at included, and only signs stand in front of operands.  Simplification keeps that.
Where bindings are well formed, evaluating such an expression does not fail for a malformed operator
or call and leaves bindings well formed.  So no source text fails for one, after any source texts. -/
theorem wellFormed_throughout :
    (∀ source es, parseProgram source = .ok es → ∀ e ∈ es, e.WellFormed) ∧
    (∀ f args, (Expr.call f args).WellFormed →
      Builtin.ofName? f.name = some f ∧ args.length = f.arity ∧
      ∀ k < f.rule.arity, ∃ a, args[k]? = some a ∧ a.WellFormed) ∧
    (∀ env (e : Expr), e.WellFormed → (e.simplify env).WellFormed) ∧
    (∀ (e : Expr) (s : Session), e.WellFormed → s.env.WellFormed →
      (∀ error, error.OfShape → (e.eval s).1 ≠ .error error) ∧ (e.eval s).2.env.WellFormed) ∧
    (∀ sources source c random error, error.OfShape →
      (runSource source (runSources sources (.initial c random))).1 ≠
        .error (.evaluation error)) := by
  refine ⟨fun _ _ => wellFormed_of_parseProgram, fun f args h => ?_, fun env e => ?_,
    fun e s he hs => ?_, fun sources source c random error herror => ?_⟩
  · exact ⟨f.ofName?_name, h.1, fun _ => h.exists_argument⟩
  · exact Expr.compositional_wellFormed.simplify env
  · exact ⟨fun error herror => (Expr.notOfShape_eval he s hs).ne_error fun h => h herror,
      Expr.keeps_eval invariant_wellFormed e s hs⟩
  · have hs := invariant_runSources invariant_wellFormed sources
      (s := .initial c random) (Environment.wellFormed_initial c)
    exact runSource_ne_ofShape source hs herror

/-- `-sum(1, x, abs(i))`. -/
def negatedSum : Expr :=
  .unary .minus (.call .sum [.number .one, .var "x", .call .abs [.var "i"]])

theorem wellFormed_throughout_negatedSum :
    parseProgram "-sum(1, x, abs(i))" = .ok [negatedSum] ∧
    (negatedSum.simplify (.initial default)).WellFormed ∧
    Expr.sessionWithSeries.env.WellFormed ∧
    (negatedSum.eval Expr.sessionWithSeries).1 ≠ .error (.arityMismatch .abs []) ∧
    (∃ a, [Expr.number .one, .var "x", .call .abs [.var "i"]][2]? = some a ∧ a.WellFormed) ∧
    (runSource "-sum(1, x, abs(i))" (runSources ["x = 3", "abs()"]
      (.initial default (mkStdGen 0)))).1 ≠ .error (.evaluation (.unsupportedOperator .times)) := by
  have hparse : parseProgram "-sum(1, x, abs(i))" = .ok [negatedSum] :=
    parseProgram_eq_ok_iff.mpr ⟨[⟨.symbol .minus, 1⟩, ⟨.identifier "sum", 1⟩,
      ⟨.symbol .leftParen, 1⟩, ⟨.number .one, 1⟩, ⟨.symbol .comma, 1⟩, ⟨.identifier "x", 1⟩,
      ⟨.symbol .comma, 1⟩, ⟨.identifier "abs", 1⟩, ⟨.symbol .leftParen, 1⟩, ⟨.identifier "i", 1⟩,
      ⟨.symbol .rightParen, 1⟩, ⟨.symbol .rightParen, 1⟩], by cbv, by cbv⟩
  obtain ⟨hparsed, hcall, hsimplify, heval, hrun⟩ := wellFormed_throughout
  have hsum : negatedSum.WellFormed := hparsed _ _ hparse _ List.mem_cons_self
  have hsession : Expr.sessionWithSeries.env.WellFormed := by
    refine Environment.Binds.set (.set (Environment.wellFormed_initial default) ?_) trivial
    exact ⟨rfl, trivial, trivial, trivial, trivial⟩
  exact ⟨hparse, hsimplify _ _ hsum, hsession, (heval _ _ hsum hsession).1 _ trivial,
    (hcall .sum _ hsum.2).2.2 2 (by decide), hrun _ _ _ _ _ trivial⟩

end Abacus
