import Abacus.Proofs.Evaluation.Frame
import Abacus.Proofs.Expr.Simplify
import Abacus.Proofs.Program

/-!
# Proofs/Session — what holds of a session after any source texts

A session is given one source text after another.  Each of them may have a value, may be no program,
and may fail in any of its statements; the session goes on either way (`runSources`).  Whatever the
texts were, the context and the constants are as they were at the start, and every variable is bound
to a literal.

The index of series is another matter, because a series binds it and a program may.  A series gives
its index the old binding back, so what its term assigns to the index is lost: the index changes
only by an assignment that is made outside the terms of all series (`Trace.Spares`).
-/

namespace Abacus

open Evaluation

/-! ## Source texts one after another -/

/-- The session after some source texts, whatever became of each. -/
def runSources : List String → Session → Session
  | [], s => s
  | source :: sources, s => runSources sources (runSource source s).2

/-- What running statements does. -/
def traceStatements : List Expr → Trace
  | [] => Trace.nothing
  | e :: es => e.trace.andThen e.eval fun _ => traceStatements es

/-- What running a source text does. -/
def traceSource (source : String) : Trace :=
  match parseProgram source with
  | .error _ => Trace.nothing
  | .ok statements => traceStatements statements

/-- What running source texts does. -/
def traceSources : List String → Trace
  | [], _ => []
  | source :: sources, s => traceSource source s ++ traceSources sources (runSource source s).2

theorem session_runStatements_single (e : Expr) (s : Session) :
    (runStatements [e] s).2 = (e.eval s).2 := by
  rw [runStatements, bind_apply]
  obtain ⟨error | x, s'⟩ := e.eval s
  · rfl
  · rfl

/-- Which value statements have does not show in the session that they leave. -/
theorem session_runStatements_cons (e : Expr) (es : List Expr) (s : Session) :
    (runStatements (e :: es) s).2 = ((e.eval >>= fun _ => runStatements es) s).2 := by
  match es with
  | [] =>
    rw [session_runStatements_single, bind_apply]
    obtain ⟨error | x, s'⟩ := e.eval s
    · rfl
    · rfl
  | e' :: es => rw [runStatements_cons e (List.cons_ne_nil e' es)]

/-- A source text leaves the session that its statements leave, if it has any. -/
theorem session_runSource (source : String) (s : Session) :
    (runSource source s).2 = match parseProgram source with
      | .error _ => s
      | .ok statements => (runStatements statements s).2 := by
  rw [runSource]
  cases parseProgram source with
  | error error => rfl
  | ok statements =>
    dsimp only
    obtain ⟨error | x, s'⟩ := runStatements statements s
    · rfl
    · rfl

/-! ## Invariants -/

section Invariants

variable {I : Session → Prop}

theorem keeps_runStatements (hI : Invariant I) : ∀ es : List Expr, Keeps I (runStatements es)
  | [] => Keeps.pure none
  | e :: es => by
    intro s hs
    rw [session_runStatements_cons]
    exact Keeps.bind (Expr.keeps_eval hI e) (fun _ => keeps_runStatements hI es) s hs

theorem invariant_runSource (hI : Invariant I) (source : String) {s : Session} (hs : I s) :
    I (runSource source s).2 := by
  rw [session_runSource]
  cases parseProgram source with
  | error error => exact hs
  | ok statements => exact keeps_runStatements hI statements s hs

/-- **What evaluation keeps holds after any source texts.** -/
theorem invariant_runSources (hI : Invariant I) :
    ∀ (sources : List String) {s : Session}, I s → I (runSources sources s)
  | [], _, hs => hs
  | source :: sources, _, hs =>
    invariant_runSources hI sources (invariant_runSource hI source hs)

end Invariants

/-! ## The index of series -/

/-- Unless the index of series is assigned to outside the terms of all series, the computation
leaves it as it was. -/
def Trace.Spares {α : Type} (t : Trace) (x : Evaluation α) : Prop :=
  ∀ s, ⟨.assign Series.indexName, false⟩ ∉ t s →
    (x s).2.env.get? Series.indexName = s.env.get? Series.indexName

namespace Trace.Spares

variable {α β : Type} {t : Trace} {x : Evaluation α}

/-- A computation that does not touch the session. -/
theorem still (t : Trace) (h : ∀ s, (x s).2 = s) : t.Spares x := by
  intro s _
  rw [h s]

theorem bind {u : α → Trace} {f : α → Evaluation β} (hx : t.Spares x)
    (hf : ∀ a, (u a).Spares (f a)) : (t.andThen x u).Spares (x >>= f) := by
  intro s hevents
  rw [Trace.andThen, List.mem_append, not_or] at hevents
  have hfirst := hx s hevents.1
  have hrest := hevents.2
  rw [bind_apply]
  generalize x s = answer at hfirst hrest
  obtain ⟨e | a, s'⟩ := answer
  · exact hfirst
  · exact (hf a s' hrest).trans hfirst

/-- A last step that does not touch the session. -/
theorem bind_still {f : α → Evaluation β} (hx : t.Spares x) (hf : ∀ a s, (f a s).2 = s) :
    t.Spares (x >>= f) := by
  have hbind : (t.andThen x fun _ => Trace.nothing).Spares (x >>= f) :=
    hx.bind fun a => still _ (hf a)
  rwa [Trace.andThen_nothing] at hbind

theorem assignment (name : String) (d : Decimal) :
    (Trace.one (.assign name)).Spares (do
      Evaluation.assign name (.number d)
      pure d) := by
  intro s hevents
  have hname : Series.indexName ≠ name := by
    rintro rfl
    exact hevents (List.mem_singleton.mpr rfl)
  exact s.env.get?_set_of_ne hname _

end Trace.Spares

namespace Expr

variable {follow : String → Expr → Evaluation Decimal} {followed : String → Expr → Trace}

theorem spares_evalWith (hfollow : ∀ name e, (followed name e).Spares (follow name e)) (e : Expr) :
    (traceWith follow followed e).Spares (evalWith follow e) := by
  induction e using Expr.induction with
  | number d => exact .still _ fun s => rfl
  | var name =>
    intro s hevents
    cases hname : s.env.get? name with
    | none => rw [evalWith_var_unbound hname]
    | some e =>
      by_cases he : ∃ d, e = .number d
      · obtain ⟨d, rfl⟩ := he
        rw [evalWith_var_literal hname]
      · rw [traceWith_var_bound hname (not_exists.mp he)] at hevents
        rw [evalWith_var_bound hname (not_exists.mp he)]
        exact hfollow name e s hevents
  | unary op a iha => exact iha.bind_still fun x s => rfl
  | binary op a b iha ihb => exact iha.bind fun x => ihb.bind_still fun y s => rfl
  | call f args ih =>
    by_cases hlength : args.length = f.arity
    · obtain ⟨apply, a, hrule, rfl⟩ | ⟨apply, a, b, hrule, rfl⟩ | ⟨target, a, rfl, rfl⟩ |
        ⟨kind, lower, upper, term, hrule, rfl⟩ | ⟨rfl, rfl⟩ := call_shape hlength
      · rw [traceWith_call_unary hrule, evalWith_call_unary hrule]
        exact (ih a (by simp)).bind fun x => .still _ fun s => rfl
      · rw [traceWith_call_binary hrule, evalWith_call_binary hrule]
        exact (ih a (by simp)).bind fun x => (ih b (by simp)).bind fun y =>
          .still _ fun s => rfl
      · rw [traceWith_define, evalWith_define]
        exact (Trace.Spares.still _ fun s => rfl).bind fun name =>
          (ih a (by simp)).bind fun x => .assignment name x
      · -- whatever the term does to the index, the series undoes it
        rw [traceWith_series hrule, evalWith_series hrule]
        exact (ih lower (by simp)).bind fun x => (ih upper (by simp)).bind fun y s _ =>
          kind.get?_indexName_evaluate x y _ s
      · exact fun s _ => rfl
    · rw [evalWith_call_of_length_ne hlength]
      exact .still _ fun s => rfl

theorem spares_evalWithin : ∀ (n : Nat) (e : Expr), (traceWithin n e).Spares (evalWithin n e)
  | 0, e => spares_evalWith (fun _ _ => .still _ fun _ => rfl) e
  | n + 1, e => spares_evalWith (fun _ e => spares_evalWithin n e) e

/-- **The index of series changes only by an assignment outside the terms of all series.** -/
theorem spares_eval (e : Expr) : e.trace.Spares e.eval :=
  fun s hevents => spares_evalWithin (nestingLimit s.env) e s hevents

end Expr

theorem spares_runStatements : ∀ es : List Expr, (traceStatements es).Spares (runStatements es)
  | [] => .still _ fun _ => rfl
  | e :: es => by
    intro s hevents
    rw [session_runStatements_cons]
    exact e.spares_eval.bind (fun _ => spares_runStatements es) s hevents

theorem get?_indexName_runSource {source : String} {s : Session}
    (h : ⟨.assign Series.indexName, false⟩ ∉ traceSource source s) :
    (runSource source s).2.env.get? Series.indexName = s.env.get? Series.indexName := by
  rw [session_runSource]
  rw [traceSource] at h
  cases hparse : parseProgram source with
  | error error => rfl
  | ok statements =>
    rw [hparse] at h
    exact spares_runStatements statements s h

theorem get?_indexName_runSources : ∀ {sources : List String} {s : Session},
    ⟨.assign Series.indexName, false⟩ ∉ traceSources sources s →
      (runSources sources s).env.get? Series.indexName = s.env.get? Series.indexName
  | [], _, _ => rfl
  | source :: sources, s, h => by
    rw [traceSources, List.mem_append, not_or] at h
    rw [runSources, get?_indexName_runSources h.2, get?_indexName_runSource h.1]

/-! ## What holds of every session -/

/-- **What holds of a session after any source texts.**  The context is the one that it started
with, `pi` and `e` and no other names are constants, and they are bound to the literals that they
started with; every variable is bound to a literal; and the index of series is bound only if it was
assigned to outside the terms of all series. -/
theorem runSources_initial (c : Context) (random : StdGen) (sources : List String) :
    (runSources sources (.initial c random)).env.context = c ∧
    (∀ name, Environment.isConstant name = true ↔ name = "pi" ∨ name = "e") ∧
    (runSources sources (.initial c random)).env.get? "pi" = some (.number Environment.pi) ∧
    (runSources sources (.initial c random)).env.get? "e" = some (.number Environment.e) ∧
    (runSources sources (.initial c random)).env.LiteralsOnly ∧
    ((runSources sources (.initial c random)).env.get? Series.indexName ≠ none →
      ⟨.assign Series.indexName, false⟩ ∈ traceSources sources (.initial c random)) := by
  have hsettled := invariant_runSources (Expr.invariant_settledBy (.initial c)) sources
    (s := .initial c random) ⟨rfl, fun _ _ => rfl⟩
  refine ⟨hsettled.context, fun name => ?_, hsettled.constants "pi" rfl, hsettled.constants "e" rfl,
    ?_, fun hbound => ?_⟩
  · simp [Environment.isConstant]
  · exact invariant_runSources invariant_literalsOnly sources (Environment.literalsOnly_initial c)
  · refine Classical.byContradiction fun hnone => hbound ?_
    exact get?_indexName_runSources hnone

/-- `sum(1, 2, define(i, 3) / 0)`: a series whose term assigns to the index and then fails. -/
def failingSeries : Expr :=
  .call .sum [.number .one, .number ⟨2, 0⟩,
    .binary .divide (.call .define [.var "i", .number ⟨3, 0⟩]) (.number .zero)]

/-- A text that is no program, an assignment to the index, and a failing series. -/
def indexTexts : List String :=
  ["i =", "i = 2", "sum(1, 2, define(i, 3) / 0)"]

/-- The index is bound to what it was assigned outside the series. -/
theorem get?_indexName_indexTexts (c : Context) (random : StdGen) :
    (runSources indexTexts (.initial c random)).env.get? Series.indexName =
      some (.number ⟨2, 0⟩) := by
  have hnone : parseProgram "i =" = .error ⟨1, .endOfInput⟩ := by
    have htokens : tokenize "i =" = .ok [⟨.identifier "i", 1⟩, ⟨.symbol .equals, 1⟩] := by cbv
    have hends : parseStatements [⟨.identifier "i", 1⟩, ⟨.symbol .equals, 1⟩] =
      .error .outOfTokens := by cbv
    rw [parseProgram, htokens]
    exact congrArg (Except.mapError _) hends
  have hassign : parseProgram "i = 2" = .ok [.call .define [.var "i", .number ⟨2, 0⟩]] :=
    parseProgram_eq_ok_iff.mpr ⟨[⟨.identifier "i", 1⟩, ⟨.symbol .equals, 1⟩,
      ⟨.number ⟨2, 0⟩, 1⟩], by cbv, by cbv⟩
  have hseries : parseProgram "sum(1, 2, define(i, 3) / 0)" = .ok [failingSeries] :=
    parseProgram_eq_ok_iff.mpr ⟨[⟨.identifier "sum", 1⟩, ⟨.symbol .leftParen, 1⟩,
      ⟨.number .one, 1⟩, ⟨.symbol .comma, 1⟩, ⟨.number ⟨2, 0⟩, 1⟩, ⟨.symbol .comma, 1⟩,
      ⟨.identifier "define", 1⟩, ⟨.symbol .leftParen, 1⟩, ⟨.identifier "i", 1⟩,
      ⟨.symbol .comma, 1⟩, ⟨.number ⟨3, 0⟩, 1⟩, ⟨.symbol .rightParen, 1⟩, ⟨.symbol .slash, 1⟩,
      ⟨.number .zero, 1⟩, ⟨.symbol .rightParen, 1⟩], by cbv, by cbv⟩
  have hrule : Builtin.sum.rule = .series .sum := rfl
  have hindex : ∀ s, (failingSeries.eval s).2.env.get? Series.indexName =
      s.env.get? Series.indexName := fun s =>
    Expr.get?_indexName_evalWithin hrule _ (Expr.evalWithin_number _ _ _)
      (Expr.evalWithin_number _ _ _)
  simp only [indexTexts, runSources, session_runSource, hnone, hassign, hseries,
    session_runStatements_single, hindex]
  rfl

theorem runSources_initial_indexTexts :
    (runSources indexTexts (.initial default (mkStdGen 0))).env.get? Series.indexName ≠ none ∧
    ⟨.assign Series.indexName, false⟩ ∈
      traceSources indexTexts (.initial default (mkStdGen 0)) := by
  have hbound : (runSources indexTexts (.initial default (mkStdGen 0))).env.get? Series.indexName ≠
      none := by
    rw [get?_indexName_indexTexts]
    exact Option.some_ne_none _
  exact ⟨hbound, (runSources_initial default (mkStdGen 0) indexTexts).2.2.2.2.2 hbound⟩

end Abacus
