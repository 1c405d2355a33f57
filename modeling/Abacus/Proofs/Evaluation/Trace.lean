import Abacus.Proofs.Evaluation.Invariant

/-!
# Proofs/Evaluation/Trace — what happens in the course of an evaluation

The answer of an evaluation and the session that it leaves do not say what went on in between.  The
`trace` does: it lists the assignments that were made, the functions that were applied and to which
values, the random numbers that were drawn and the terms that series took in, each as an `Event`.
It is defined beside evaluation, by the same recursion, and looks at evaluation only for the values
and sessions that it needs on the way; an evaluation that fails has the trace up to its failure.

`only_traceWithin` says where events come from: an expression whose calls are all of some functions,
evaluated where all bindings are like it, has only events of those functions.
-/

namespace Abacus

open Evaluation

/-! ## Events -/

/-- Something that an evaluation does. -/
inductive Action where
  /-- A variable is assigned to. -/
  | assign (name : String)
  /-- A function is applied to the values of its arguments. -/
  | apply (f : Builtin) (values : List Decimal)
  /-- A random number is drawn. -/
  | draw
  /-- The total of a series takes in a term. -/
  | accumulate (kind : Series) (total term : Decimal)

/-- The function that a series is a call of. -/
def Series.function : Series → Builtin
  | .sum => .sum
  | .product => .product

/-- The function whose call does it. -/
def Action.function : Action → Builtin
  | .assign _ => .define
  | .apply f _ => f
  | .draw => .random
  | .accumulate kind _ _ => kind.function

/-- Something that an evaluation does, and where. -/
structure Event where
  action : Action
  /-- Whether it is done in the course of evaluating the term of a series. -/
  inTerm : Bool

/-- What a computation does, for each session that it may start in. -/
abbrev Trace : Type :=
  Session → List Event

namespace Trace

/-- Nothing happens. -/
def nothing : Trace :=
  fun _ => []

/-- One thing happens. -/
def one (action : Action) : Trace :=
  fun _ => [⟨action, false⟩]

/-- What the computation `x` does and then, if it has an answer, what its continuation does. -/
def andThen {α : Type} (t : Trace) (x : Evaluation α) (u : α → Trace) : Trace := fun s =>
  t s ++ match x s with
    | (.ok a, s) => u a s
    | (.error _, _) => []

variable {α : Type} {t : Trace} {x : Evaluation α}

/-- A continuation that does nothing. -/
theorem andThen_nothing : (t.andThen x fun _ => nothing) = t := by
  funext s
  rw [andThen]
  split
  · exact List.append_nil _
  · exact List.append_nil _

end Trace

/-! ## Traces of series -/

namespace Series

/-- A session in which the index of a series is bound. -/
def withIndex (s : Session) (index : Decimal) : Session :=
  { s with env := s.env.set indexName (.number index) }

/-- What the loop of a series does, given what its term does. -/
def traceRun (kind : Series) (term : Evaluation Decimal) (t : Trace) (upper index total : Decimal) :
    Trace := fun s =>
  if h : index.atMost upper = true then
    have := remaining_next_lt h
    (t (withIndex s index)).map (⟨·.action, true⟩) ++
      match term (withIndex s index) with
      | (.ok x, s) =>
        ⟨.accumulate kind total x, false⟩ ::
          match kind.combine total x with
          | .ok total => traceRun kind term t upper index.next total s
          | .error _ => []
      | (.error _, _) => []
  else []
termination_by remaining index upper

/-- What a series does between two bounds. -/
def trace (kind : Series) (lower upper : Decimal) (term : Evaluation Decimal) (t : Trace) : Trace :=
  if lower.atMost upper then kind.traceRun term t upper lower kind.identity else Trace.nothing

variable {kind : Series} {term : Evaluation Decimal} {t : Trace} {upper index total : Decimal}
  {s s' : Session}

theorem takeIn_of_ok {x : Decimal} (hx : term (withIndex s index) = (.ok x, s')) :
    takeIn kind term index total s = (kind.combine total x, s') := by
  rw [withIndex] at hx
  rw [takeIn, hx]

theorem takeIn_of_error {e : EvalError} (he : term (withIndex s index) = (.error e, s')) :
    takeIn kind term index total s = (.error e, s') := by
  rw [withIndex] at he
  rw [takeIn, he]

/-- One round of a series whose total takes in the value of the term. -/
theorem run_of_ok (h : index.atMost upper = true) {x total' : Decimal}
    (hx : term (withIndex s index) = (.ok x, s')) (htotal : kind.combine total x = .ok total') :
    run kind term upper index total s = run kind term upper index.next total' s' := by
  rw [run, dif_pos h, takeIn_of_ok hx, htotal]

theorem run_of_error (h : index.atMost upper = true) {e : EvalError}
    (he : term (withIndex s index) = (.error e, s')) :
    run kind term upper index total s = (.error e, s') := by
  rw [run, dif_pos h, takeIn_of_error he]

/-- A series stops if its total cannot take in a term. -/
theorem run_of_stop (h : index.atMost upper = true) {x : Decimal} {e : EvalError}
    (hx : term (withIndex s index) = (.ok x, s')) (he : kind.combine total x = .error e) :
    run kind term upper index total s = (.error e, s') := by
  rw [run, dif_pos h, takeIn_of_ok hx, he]

theorem run_of_not (h : ¬ index.atMost upper = true) :
    run kind term upper index total s = (.ok total, s) := by
  rw [run, dif_neg h]

theorem traceRun_of_ok (h : index.atMost upper = true) {x total' : Decimal}
    (hx : term (withIndex s index) = (.ok x, s')) (htotal : kind.combine total x = .ok total') :
    traceRun kind term t upper index total s =
      (t (withIndex s index)).map (⟨·.action, true⟩) ++
        ⟨.accumulate kind total x, false⟩ ::
          traceRun kind term t upper index.next total' s' := by
  rw [traceRun, dif_pos h, hx]
  simp only [htotal]

theorem traceRun_of_error (h : index.atMost upper = true) {e : EvalError}
    (he : term (withIndex s index) = (.error e, s')) :
    traceRun kind term t upper index total s = (t (withIndex s index)).map (⟨·.action, true⟩) := by
  rw [traceRun, dif_pos h, he, List.append_nil]

theorem traceRun_of_stop (h : index.atMost upper = true) {x : Decimal} {e : EvalError}
    (hx : term (withIndex s index) = (.ok x, s')) (he : kind.combine total x = .error e) :
    traceRun kind term t upper index total s =
      (t (withIndex s index)).map (⟨·.action, true⟩) ++ [⟨.accumulate kind total x, false⟩] := by
  rw [traceRun, dif_pos h, hx]
  simp only [he]

theorem traceRun_of_not (h : ¬ index.atMost upper = true) :
    traceRun kind term t upper index total s = [] := by
  rw [traceRun, dif_neg h]

/-- **Induction over the rounds of a series**: the loop is done, or its term fails, or the total
cannot take in the term, or the loop goes on with the next index and a new total in the session that
the term leaves. -/
theorem rounds {P : Decimal → Decimal → Session → Prop} (kind : Series)
    (term : Evaluation Decimal) (upper : Decimal)
    (done : ∀ index total s, ¬ index.atMost upper = true → P index total s)
    (failed : ∀ index total s e s', index.atMost upper = true →
      term (withIndex s index) = (.error e, s') → P index total s)
    (stopped : ∀ index total s x e s', index.atMost upper = true →
      term (withIndex s index) = (.ok x, s') → kind.combine total x = .error e → P index total s)
    (next : ∀ index total s x total' s', index.atMost upper = true →
      term (withIndex s index) = (.ok x, s') → kind.combine total x = .ok total' →
        P index.next total' s' → P index total s) : ∀ index total s, P index total s := by
  intro index total s
  fun_induction run kind term upper index total s with
  | case1 index total s h _ total' s' htotal ih =>
    cases hterm : term (withIndex s index) with
    | mk answer t =>
      cases answer with
      | error e =>
        rw [takeIn_of_error hterm] at htotal
        cases htotal
      | ok x =>
        rw [takeIn_of_ok hterm, Prod.mk.injEq] at htotal
        obtain ⟨hcombine, rfl⟩ := htotal
        exact next index total s x total' t h hterm hcombine ih
  | case2 index total s h _ e s' he =>
    cases hterm : term (withIndex s index) with
    | mk answer t =>
      cases answer with
      | error e => exact failed index total s e t h hterm
      | ok x =>
        rw [takeIn_of_ok hterm, Prod.mk.injEq] at he
        exact stopped index total s x e t h hterm he.1
  | case3 index total s h => exact done index total s h

end Series

/-! ## Traces of expressions -/

namespace Expr

/-- What evaluating an expression does, given what following a binding does. -/
def traceWith (follow : String → Expr → Evaluation Decimal) (followed : String → Expr → Trace) :
    Expr → Trace
  | .number _ => Trace.nothing
  | .var name => fun s =>
    match s.env.get? name with
    | none => []
    | some (.number _) => []
    | some e => followed name e s
  | .unary _ a => traceWith follow followed a
  | .binary _ a b =>
    (traceWith follow followed a).andThen (evalWith follow a) fun _ => traceWith follow followed b
  | .call f args =>
    match f.rule, args with
    | .unary _, [a] =>
      (traceWith follow followed a).andThen (evalWith follow a) fun x => Trace.one (.apply f [x])
    | .binary _, [a, b] =>
      (traceWith follow followed a).andThen (evalWith follow a) fun x =>
        (traceWith follow followed b).andThen (evalWith follow b) fun y =>
          Trace.one (.apply f [x, y])
    | .assignment, [target, a] =>
      Trace.nothing.andThen (Evaluation.lift target.target?) fun name =>
        (traceWith follow followed a).andThen (evalWith follow a) fun _ => Trace.one (.assign name)
    | .series kind, [lower, upper, term] =>
      (traceWith follow followed lower).andThen (evalWith follow lower) fun x =>
        (traceWith follow followed upper).andThen (evalWith follow upper) fun y =>
          kind.trace x y (evalWith follow term) (traceWith follow followed term)
    | .random, [] => Trace.one .draw
    | _, _ => Trace.nothing

/-- What evaluating an expression does, with bindings nested at most `n` deep. -/
def traceWithin : Nat → Expr → Trace
  | 0 => traceWith (fun name _ => Evaluation.fail (.circularBinding name)) fun _ _ => Trace.nothing
  | n + 1 => traceWith (fun _ e => evalWithin n e) fun _ e => traceWithin n e

/-- **What evaluating an expression in a session does.** -/
def trace (e : Expr) : Trace := fun s =>
  traceWithin (nestingLimit s.env) e s

variable {follow : String → Expr → Evaluation Decimal} {followed : String → Expr → Trace}
  {f : Builtin}

/-- A variable does nothing, unless its binding is followed. -/
theorem traceWith_var_bound {name : String} {s : Session} {e : Expr}
    (h : s.env.get? name = some e) (he : ∀ d, e ≠ .number d) :
    traceWith follow followed (.var name) s = followed name e s := by
  cases e with
  | number d => exact absurd rfl (he d)
  | _ => simp only [traceWith, h]

theorem traceWith_call_unary {apply : Context → Decimal → Except EvalError Decimal}
    (h : f.rule = .unary apply) (a : Expr) :
    traceWith follow followed (.call f [a]) =
      (traceWith follow followed a).andThen (evalWith follow a)
        fun x => Trace.one (.apply f [x]) := by
  rw [traceWith.eq_def]
  simp only [h]

theorem traceWith_call_binary {apply : Context → Decimal → Decimal → Except EvalError Decimal}
    (h : f.rule = .binary apply) (a b : Expr) :
    traceWith follow followed (.call f [a, b]) =
      (traceWith follow followed a).andThen (evalWith follow a) fun x =>
        (traceWith follow followed b).andThen (evalWith follow b) fun y =>
          Trace.one (.apply f [x, y]) := by
  rw [traceWith.eq_def]
  simp only [h]

theorem traceWith_define (target a : Expr) :
    traceWith follow followed (.call .define [target, a]) =
      Trace.nothing.andThen (Evaluation.lift target.target?) fun name =>
        (traceWith follow followed a).andThen (evalWith follow a)
          fun _ => Trace.one (.assign name) :=
  rfl

theorem traceWith_series {kind : Series} (h : f.rule = .series kind) (lower upper term : Expr) :
    traceWith follow followed (.call f [lower, upper, term]) =
      (traceWith follow followed lower).andThen (evalWith follow lower) fun x =>
        (traceWith follow followed upper).andThen (evalWith follow upper) fun y =>
          kind.trace x y (evalWith follow term) (traceWith follow followed term) := by
  rw [traceWith.eq_def]
  simp only [h]

theorem traceWith_random :
    traceWith follow followed (.call .random []) = Trace.one .draw :=
  rfl

end Expr

/-! ## Where events come from -/

namespace Expr

mutual

/-- Every call is of a function that satisfies `q`. -/
def CallsOnly (q : Builtin → Prop) : Expr → Prop
  | .number _ => True
  | .var _ => True
  | .unary _ a => CallsOnly q a
  | .binary _ a b => CallsOnly q a ∧ CallsOnly q b
  | .call f args => q f ∧ AllCallsOnly q args

/-- `CallsOnly` for each of a list. -/
def AllCallsOnly (q : Builtin → Prop) : List Expr → Prop
  | [] => True
  | e :: es => CallsOnly q e ∧ AllCallsOnly q es

end

theorem allCallsOnly_iff {q : Builtin → Prop} :
    ∀ es : List Expr, AllCallsOnly q es ↔ ∀ e ∈ es, CallsOnly q e
  | [] => by simp [AllCallsOnly]
  | e :: es => by simp [AllCallsOnly, allCallsOnly_iff es]

end Expr

/-- Every binding calls only functions that satisfy `q`. -/
def Environment.BindsOnly (q : Builtin → Prop) (env : Environment) : Prop :=
  ∀ name e, env.get? name = some e → e.CallsOnly q

variable {q : Builtin → Prop}

theorem Environment.BindsOnly.set {env : Environment} (h : env.BindsOnly q) (name : String)
    {e : Expr} (he : e.CallsOnly q) : (env.set name e).BindsOnly q :=
  Environment.Binds.set (P := fun _ e => e.CallsOnly q) h he

theorem Environment.bindsOnly_initial (c : Context) : (Environment.initial c).BindsOnly q :=
  Environment.binds_initial (fun _ _ => trivial) c

/-- **Evaluation binds nothing that calls anything.** -/
theorem invariant_bindsOnly (q : Builtin → Prop) :
    Invariant fun s : Session => s.env.BindsOnly q :=
  invariant_binds fun _ _ => trivial

/-- Where bindings call only functions that satisfy `q`, so does the computation. -/
def Trace.Only (q : Builtin → Prop) (t : Trace) : Prop :=
  ∀ s, s.env.BindsOnly q → ∀ event ∈ t s, q event.action.function

namespace Trace.Only

theorem nothing : Trace.nothing.Only q :=
  fun _ _ => List.forall_mem_nil _

theorem one {action : Action} (h : q action.function) : (Trace.one action).Only q :=
  fun _ _ => List.forall_mem_singleton.mpr h

theorem andThen {α : Type} {t : Trace} {x : Evaluation α} {u : α → Trace} (ht : t.Only q)
    (hx : Keeps (fun s => s.env.BindsOnly q) x) (hu : ∀ a, (u a).Only q) :
    (t.andThen x u).Only q := by
  intro s hs
  have hkept := hx s hs
  rw [Trace.andThen, List.forall_mem_append]
  refine ⟨ht s hs, ?_⟩
  generalize x s = answer at hkept
  obtain ⟨e | a, s'⟩ := answer
  · exact List.forall_mem_nil _
  · exact hu a s' hkept

variable {term : Evaluation Decimal} {t : Trace}

/-- The loop of a series calls what its term calls. -/
theorem traceRun {kind : Series} (hkind : q kind.function) (ht : t.Only q)
    (hterm : Keeps (fun s => s.env.BindsOnly q) term) (upper index total : Decimal) :
    (kind.traceRun term t upper index total).Only q := by
  intro s
  refine Series.rounds (P := fun index total s => s.env.BindsOnly q →
    ∀ event ∈ kind.traceRun term t upper index total s, q event.action.function)
    kind term upper ?_ ?_ ?_ ?_ index total s
  · intro index total s h _
    rw [Series.traceRun_of_not h]
    exact List.forall_mem_nil _
  · intro index total s e s' h he hs
    rw [Series.traceRun_of_error h he]
    have hindex := Series.invariant_index (invariant_bindsOnly q) hs index
    exact List.forall_mem_map.mpr (ht _ hindex)
  · intro index total s x e s' h hx he hs
    have hindex := Series.invariant_index (invariant_bindsOnly q) hs index
    rw [Series.traceRun_of_stop h hx he, List.forall_mem_append, List.forall_mem_singleton]
    exact ⟨List.forall_mem_map.mpr (ht _ hindex), hkind⟩
  · intro index total s x total' s' h hx htotal ih hs
    have hindex := Series.invariant_index (invariant_bindsOnly q) hs index
    have hkept := hterm (Series.withIndex s index) hindex
    rw [hx] at hkept
    rw [Series.traceRun_of_ok h hx htotal, List.forall_mem_append, List.forall_mem_cons]
    exact ⟨List.forall_mem_map.mpr (ht _ hindex), hkind, ih hkept⟩

theorem series {kind : Series} (hkind : q kind.function) (ht : t.Only q)
    (hterm : Keeps (fun s => s.env.BindsOnly q) term) (lower upper : Decimal) :
    (kind.trace lower upper term t).Only q := by
  rw [Series.trace]
  split
  · exact traceRun hkind ht hterm upper lower kind.identity
  · exact nothing

end Trace.Only

theorem Builtin.function_of_rule {f : Builtin} {kind : Series} (h : f.rule = .series kind) :
    kind.function = f := by
  cases f <;> cases h <;> rfl

namespace Expr

variable {follow : String → Expr → Evaluation Decimal} {followed : String → Expr → Trace}

theorem only_traceWith (hkeeps : ∀ name e, Keeps (fun s => s.env.BindsOnly q) (follow name e))
    (hfollowed : ∀ name e, e.CallsOnly q → (followed name e).Only q) {e : Expr} :
    e.CallsOnly q → (traceWith follow followed e).Only q := by
  have hkept : ∀ e, Keeps (fun s => s.env.BindsOnly q) (evalWith follow e) :=
    keeps_evalWith (invariant_bindsOnly q) hkeeps
  induction e using Expr.induction with
  | number d => exact fun _ => Trace.Only.nothing
  | var name =>
    intro _ s hs
    simp only [traceWith]
    split
    · exact List.forall_mem_nil _
    · exact List.forall_mem_nil _
    · next e _ he => exact hfollowed name e (hs name e he) s hs
  | unary op a iha => exact iha
  | binary op a b iha ihb => exact fun h => (iha h.1).andThen (hkept a) fun _ => ihb h.2
  | call f args ih =>
    rintro ⟨hf, hargs⟩
    have ih' : ∀ a ∈ args, (traceWith follow followed a).Only q :=
      fun a ha => ih a ha ((allCallsOnly_iff args).mp hargs a ha)
    unfold traceWith
    split
    · next a _ => exact (ih' a (by simp)).andThen (hkept a) fun x => .one hf
    · next a b _ =>
        exact (ih' a (by simp)).andThen (hkept a) fun x =>
          (ih' b (by simp)).andThen (hkept b) fun y => .one hf
    · next target a hrule =>
        obtain rfl := Builtin.eq_define_of_rule hrule
        exact Trace.Only.nothing.andThen (Keeps.lift _) fun name =>
          (ih' a (by simp)).andThen (hkept a) fun x => .one hf
    · next kind lower upper term hrule =>
        exact (ih' lower (by simp)).andThen (hkept lower) fun x =>
          (ih' upper (by simp)).andThen (hkept upper) fun y =>
            .series (Builtin.function_of_rule hrule ▸ hf) (ih' term (by simp)) (hkept term) x y
    · next hrule =>
        obtain rfl := Builtin.eq_random_of_rule hrule
        exact .one hf
    · exact Trace.Only.nothing

/-- **Events come from calls**: an expression that calls only functions with `q`, where all bindings
do, has only events of functions with `q`. -/
theorem only_traceWithin : ∀ (n : Nat) {e : Expr}, e.CallsOnly q → (traceWithin n e).Only q
  | 0, _, h => only_traceWith (fun _ _ => Keeps.fail _) (fun _ _ _ => Trace.Only.nothing) h
  | n + 1, _, h =>
    only_traceWith (fun _ e => keeps_evalWithin (invariant_bindsOnly q) n e)
      (fun _ _ he => only_traceWithin n he) h

end Expr

end Abacus
