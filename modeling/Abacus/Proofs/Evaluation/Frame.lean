import Abacus.Proofs.Evaluation.Trace

/-!
# Proofs/Evaluation/Frame — what an evaluation leaves as it was

An evaluation whose events are all of a harmless kind changes a session only in a harmless way.  A
`Frame` pairs the two: the actions that are `allowed` and a relation between the session before and
the session after.  The assignments that are allowed must stay in the relation, and so must a
series, which binds its index for every term and gives its binding back at the end.  For a frame,
every evaluation with allowed events stays in the relation, whatever it answers
(`frames_evalWithin`).

There are two frames.  Without assignments the environment stays the same (`frame_environment`), and
without assignments to a variable other than the index, so does that variable (`frame_variable`).
-/

namespace Abacus

open Evaluation

/-- **Actions that are allowed, and the sessions that they may lead to.** -/
structure Frame (allowed : Action → Prop) (R : Session → Session → Prop) : Prop where
  refl : ∀ s, R s s
  trans : ∀ {s t u}, R s t → R t u → R s u
  /-- The source of random numbers does not count. -/
  random : ∀ s random, R s { s with random }
  /-- An allowed assignment stays in the relation. -/
  assign : ∀ s name d, allowed (.assign name) → R s { s with env := s.env.set name (.number d) }
  /-- What happens under one binding of the index may happen under another. -/
  index : ∀ {s t d} d', R (Series.withIndex s d) t →
    R (Series.withIndex s d') (Series.withIndex t d')
  /-- What happens under bindings of the index is undone for the index by giving it its binding
  back. -/
  restore : ∀ {s t}, (∀ d, R (Series.withIndex s d) (Series.withIndex t d)) →
    R s { t with env := t.env.restore Series.indexName (s.env.get? Series.indexName) }

variable {allowed : Action → Prop} {R : Session → Session → Prop}

/-! ## Computations -/

/-- With allowed events, the computation leads from a session to a related one. -/
def Trace.Frames {α : Type} (t : Trace) (allowed : Action → Prop) (R : Session → Session → Prop)
    (x : Evaluation α) : Prop :=
  ∀ s, (∀ event ∈ t s, allowed event.action) → R s (x s).2

/-- A last step that does not touch the session. -/
theorem Trace.Frames.bind_still {α β : Type} {t : Trace} {x : Evaluation α}
    {f : α → Evaluation β} (hx : t.Frames allowed R x) (hf : ∀ a s, (f a s).2 = s) :
    t.Frames allowed R (x >>= f) := by
  intro s hevents
  have hR := hx s hevents
  rw [bind_apply]
  generalize x s = answer at hR
  obtain ⟨e | a, s'⟩ := answer
  · exact hR
  · show R s (f a s').2
    rw [hf a s']
    exact hR

namespace Frame

/-- A computation that does not touch the session. -/
theorem still (hF : Frame allowed R) {α : Type} (t : Trace) {x : Evaluation α}
    (h : ∀ s, (x s).2 = s) : t.Frames allowed R x := by
  intro s _
  rw [h s]
  exact hF.refl s

theorem bind (hF : Frame allowed R) {α β : Type} {t : Trace} {x : Evaluation α} {u : α → Trace}
    {f : α → Evaluation β} (hx : t.Frames allowed R x) (hf : ∀ a, (u a).Frames allowed R (f a)) :
    (t.andThen x u).Frames allowed R (x >>= f) := by
  intro s hevents
  rw [Trace.andThen, List.forall_mem_append] at hevents
  have hR := hx s hevents.1
  have hrest := hevents.2
  rw [bind_apply]
  generalize x s = answer at hR hrest
  obtain ⟨e | a, s'⟩ := answer
  · exact hR
  · exact hF.trans hR (hf a s' hrest)

theorem assignment (hF : Frame allowed R) (name : String) (x : Decimal) :
    (Trace.one (.assign name)).Frames allowed R (do
      Evaluation.assign name (.number x)
      pure x) :=
  fun s hevents => hF.assign s name x (hevents ⟨.assign name, false⟩ (List.mem_singleton.mpr rfl))

/-! ## Series -/

variable {term : Evaluation Decimal} {t : Trace}

/-- **One round of a series**: whatever the term does under one binding of the index, the session
stays in the relation under every other. -/
theorem round (hF : Frame allowed R) (hterm : t.Frames allowed R term) {s : Session}
    {index : Decimal}
    (hevents : ∀ event ∈ (t (Series.withIndex s index)).map (Event.mk ·.action true),
      allowed event.action) (d : Decimal) :
    R (Series.withIndex s d) (Series.withIndex (term (Series.withIndex s index)).2 d) := by
  rw [List.forall_mem_map] at hevents
  exact hF.index d (hterm _ hevents)

/-- The rounds of a series, by induction. -/
theorem run (hF : Frame allowed R) (hterm : t.Frames allowed R term) (kind : Series)
    (upper index total : Decimal) (s : Session)
    (hevents : ∀ event ∈ kind.traceRun term t upper index total s, allowed event.action)
    (d : Decimal) :
    R (Series.withIndex s d) (Series.withIndex (kind.run term upper index total s).2 d) := by
  revert hevents
  refine Series.rounds (P := fun index total s =>
    (∀ event ∈ kind.traceRun term t upper index total s, allowed event.action) →
      R (Series.withIndex s d) (Series.withIndex (kind.run term upper index total s).2 d))
    kind term upper ?_ ?_ ?_ ?_ index total s
  · intro index total s h _
    rw [Series.run_of_not h]
    exact hF.refl _
  · intro index total s e s' h he hevents
    rw [Series.traceRun_of_error h he] at hevents
    rw [Series.run_of_error h he]
    have hround := hF.round hterm hevents d
    rwa [he] at hround
  · intro index total s x e s' h hx he hevents
    rw [Series.traceRun_of_stop h hx he, List.forall_mem_append] at hevents
    rw [Series.run_of_stop h hx he]
    have hround := hF.round hterm hevents.1 d
    rwa [hx] at hround
  · intro index total s x total' s' h hx htotal ih hevents
    rw [Series.traceRun_of_ok h hx htotal, List.forall_mem_append, List.forall_mem_cons] at hevents
    rw [Series.run_of_ok h hx htotal]
    have hround := hF.round hterm hevents.1 d
    rw [hx] at hround
    exact hF.trans hround (ih hevents.2.2)

theorem series (hF : Frame allowed R) (hterm : t.Frames allowed R term) (kind : Series)
    (lower upper : Decimal) :
    (kind.trace lower upper term t).Frames allowed R (kind.evaluate lower upper term) := by
  rw [Series.trace, Series.evaluate]
  split
  · exact fun s hevents => hF.restore (hF.run hterm kind upper lower kind.identity s hevents)
  · exact hF.still _ fun s => rfl

/-! ## Expressions -/

variable {follow : String → Expr → Evaluation Decimal} {followed : String → Expr → Trace}

open Abacus.Expr

theorem frames_evalWith (hF : Frame allowed R)
    (hfollow : ∀ name e, (followed name e).Frames allowed R (follow name e)) (e : Expr) :
    (traceWith follow followed e).Frames allowed R (evalWith follow e) := by
  induction e using Expr.induction with
  | number d => exact hF.still _ fun s => rfl
  | var name =>
    intro s hevents
    cases hname : s.env.get? name with
    | none =>
      rw [evalWith_var_unbound hname]
      exact hF.refl s
    | some e =>
      by_cases he : ∃ d, e = .number d
      · obtain ⟨d, rfl⟩ := he
        rw [evalWith_var_literal hname]
        exact hF.refl s
      · have hne : ∀ d, e ≠ .number d := fun d h => he ⟨d, h⟩
        rw [traceWith_var_bound hname hne] at hevents
        rw [evalWith_var_bound hname hne]
        exact hfollow name e s hevents
  | unary op a iha => exact iha.bind_still fun x s => rfl
  | binary op a b iha ihb => exact hF.bind iha fun x => ihb.bind_still fun y s => rfl
  | call f args ih =>
    by_cases hshape : args.length = f.arity
    · obtain ⟨apply, a, hrule, rfl⟩ | ⟨apply, a, b, hrule, rfl⟩ | ⟨target, a, rfl, rfl⟩ |
        ⟨kind, lower, upper, term, hrule, rfl⟩ | ⟨rfl, rfl⟩ := call_shape hshape
      · rw [traceWith_call_unary hrule, evalWith_call_unary hrule]
        exact hF.bind (ih a (by simp)) fun x => hF.still _ fun s => rfl
      · rw [traceWith_call_binary hrule, evalWith_call_binary hrule]
        exact hF.bind (ih a (by simp)) fun x => hF.bind (ih b (by simp)) fun y =>
          hF.still _ fun s => rfl
      · rw [traceWith_define, evalWith_define]
        exact hF.bind (hF.still _ fun s => rfl) fun name => hF.bind (ih a (by simp)) fun x =>
          hF.assignment name x
      · rw [traceWith_series hrule, evalWith_series hrule]
        exact hF.bind (ih lower (by simp)) fun x => hF.bind (ih upper (by simp)) fun y =>
          hF.series (ih term (by simp)) kind x y
      · exact fun s _ => hF.random s _
    · rw [evalWith_call_of_length_ne hshape]
      exact hF.still _ fun s => rfl

/-- **Allowed events stay in the relation**, whatever the evaluation answers. -/
theorem frames_evalWithin (hF : Frame allowed R) :
    ∀ (n : Nat) (e : Expr), (traceWithin n e).Frames allowed R (evalWithin n e)
  | 0, e => hF.frames_evalWith (fun _ _ => hF.still _ fun _ => rfl) e
  | n + 1, e => hF.frames_evalWith (fun _ e => hF.frames_evalWithin n e) e

end Frame

/-! ## The two frames -/

/-- No assignment, no change of the environment. -/
theorem frame_environment :
    Frame (fun action => action.function ≠ .define) (fun s t => t.env = s.env) where
  refl s := rfl
  trans hst htu := htu.trans hst
  random s random := rfl
  assign s name d h := absurd rfl h
  index d' h := by
    simp only [Series.withIndex] at h ⊢
    rw [h, Environment.set_set]
  restore {s t} h := by
    have hset := h Decimal.zero
    simp only [Series.withIndex] at hset ⊢
    rw [← Environment.restore_set, hset, Environment.restore_set, Environment.restore_get?]

/-- No assignment to a variable other than the index, no change of that variable. -/
theorem frame_variable {name : String} (hname : name ≠ Series.indexName) :
    Frame (fun action => action ≠ .assign name) (fun s t => t.env.get? name = s.env.get? name) where
  refl s := rfl
  trans hst htu := htu.trans hst
  random s random := rfl
  assign s other d h := Environment.get?_set_of_ne s.env (fun heq => h (congrArg _ heq.symm)) _
  index {s t d} d' h := by
    rw [Series.withIndex, Series.withIndex, Environment.get?_set_of_ne _ hname,
      Environment.get?_set_of_ne _ hname, h, Series.withIndex, Environment.get?_set_of_ne _ hname]
  restore {s t} h := by
    have hset := h Decimal.zero
    simp only [Series.withIndex, Environment.get?_set_of_ne _ hname] at hset
    rw [Environment.get?_restore_of_ne _ hname, hset]

namespace Series

/-- **A series gives its index the binding back** that the index had after the bounds, whatever its
term binds and however it ends. -/
theorem get?_indexName_evaluate (kind : Series) (lower upper : Decimal) (term : Evaluation Decimal)
    (s : Session) :
    (kind.evaluate lower upper term s).2.env.get? indexName = s.env.get? indexName := by
  rw [evaluate]
  split
  · exact Environment.get?_restore_self _ _ _
  · rfl

end Series

namespace Expr

/-- **The index after a series whose bounds have values** is as the bounds left it. -/
theorem get?_indexName_evalWithin {n : Nat} {f : Builtin} {kind : Series}
    (hrule : f.rule = .series kind) {lower upper : Expr} (term : Expr) {x y : Decimal}
    {s s₁ s₂ : Session} (hx : evalWithin n lower s = (.ok x, s₁))
    (hy : evalWithin n upper s₁ = (.ok y, s₂)) :
    (evalWithin n (.call f [lower, upper, term]) s).2.env.get? Series.indexName =
      s₂.env.get? Series.indexName := by
  rw [evalWithin_series hrule term hx hy]
  exact kind.get?_indexName_evaluate x y _ s₂

/-- **What evaluation leaves as it was.**  Where nothing assigns, neither in the expression nor in
what variables are bound to, evaluation leaves the whole environment as it was, whatever it answers.
In any case, a variable other than the index of series changes only if an assignment to it is made,
and a series whose bounds have values leaves its index as the bounds left it. -/
theorem eval_frame (e : Expr) (s : Session) :
    (e.CallsOnly (· ≠ .define) → s.env.BindsOnly (· ≠ .define) → (e.eval s).2.env = s.env) ∧
    (∀ name, name ≠ Series.indexName → (e.eval s).2.env.get? name ≠ s.env.get? name →
      ∃ event ∈ e.trace s, event.action = .assign name) ∧
    (∀ n f kind lower upper term x y s₁ s₂, f.rule = .series kind →
      evalWithin n lower s = (.ok x, s₁) → evalWithin n upper s₁ = (.ok y, s₂) →
      (evalWithin n (.call f [lower, upper, term]) s).2.env.get? Series.indexName =
        s₂.env.get? Series.indexName) := by
  refine ⟨fun he hs => ?_, fun name hname hchanged => ?_, ?_⟩
  · exact frame_environment.frames_evalWithin _ e s (only_traceWithin _ he s hs)
  · refine Classical.byContradiction fun hnone => hchanged ?_
    exact (frame_variable hname).frames_evalWithin _ e s
      fun event hevent heq => hnone ⟨event, hevent, heq⟩
  · exact fun n f kind lower upper term x y s₁ s₂ hrule hx hy =>
      get?_indexName_evalWithin hrule term hx hy

/-- `sum(1, x, product(i, x, i) / 0)`: a series in a series, and a failure in the midst of both. -/
def nestedSeries : Expr :=
  .call .sum [.number .one, .var "x", .binary .divide
    (.call .product [.var "i", .var "x", .var "i"]) (.number .zero)]

/-- `sum(1, 1, define(i, define(y, 1)))`: a series that assigns to its index. -/
def assigningSeries : Expr :=
  .call .sum [.number .one, .number .one,
    .call .define [.var "i", .call .define [.var "y", .number .one]]]

/-- A session that starts with `x` bound to a series, and the index bound to `x`. -/
def sessionWithSeries : Session :=
  ⟨((Environment.initial default).set "x" (.call .sum [.number .one, .number .one, .var "i"])).set
    "i" (.var "x"), mkStdGen 0⟩

theorem eval_frame_nestedSeries :
    (nestedSeries.CallsOnly (· ≠ .define) ∧ sessionWithSeries.env.BindsOnly (· ≠ .define) ∧
      (nestedSeries.eval sessionWithSeries).2.env = sessionWithSeries.env) ∧
    ((call .define [.var "y", .number .one]).eval sessionWithSeries).2.env.get? "y" ≠
      sessionWithSeries.env.get? "y" ∧
    (∃ event ∈ (call .define [.var "y", .number .one]).trace sessionWithSeries,
      event.action = .assign "y") ∧
    (evalWithin 3 assigningSeries sessionWithSeries).2.env.get? "i" = some (.var "x") := by
  have hcalls : nestedSeries.CallsOnly (· ≠ .define) := by
    simp [nestedSeries, CallsOnly, AllCallsOnly]
  have hbinds : sessionWithSeries.env.BindsOnly (· ≠ .define) :=
    ((Environment.bindsOnly_initial default).set "x"
      (by simp [CallsOnly, AllCallsOnly])).set "i" trivial
  have hchanged : ((call .define [.var "y", .number .one]).eval sessionWithSeries).2.env.get? "y" ≠
      sessionWithSeries.env.get? "y" := by
    have hbefore : sessionWithSeries.env.get? "y" = none := rfl
    rw [hbefore]
    exact Option.some_ne_none (number .one)
  refine ⟨⟨hcalls, hbinds, (eval_frame _ _).1 hcalls hbinds⟩, hchanged,
    (eval_frame _ _).2.1 "y" (by decide) hchanged, ?_⟩
  exact (eval_frame (.number .one) sessionWithSeries).2.2 3 .sum .sum _ _ _ .one .one _ _ rfl
    (evalWith_number _ _) (evalWith_number _ _)

end Expr

end Abacus
