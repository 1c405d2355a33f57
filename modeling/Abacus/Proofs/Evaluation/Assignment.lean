import Abacus.Proofs.Session

/-!
# Proofs/Evaluation/Assignment — what a failed assignment leaves behind

An assignment looks at its target, then evaluates its right-hand side, and binds the target last, so
that one which fails has bound nothing itself.  The right-hand side is an expression like any other,
though: it may make assignments of its own before it fails, and nothing takes them back
(`not_define_atomic`).

So a failed assignment leaves the session that its right-hand side leaves, or the one that it found
if its target is refused, and every variable that has changed was assigned to in the course of the
right-hand side: `evalWithin_define_error`.
-/

namespace Abacus

open Evaluation

namespace Expr

/-! ## The order of an assignment -/

/-- **The targets of assignments**: what is no variable is refused, and so are constants. -/
theorem target?_cases (target : Expr) :
    (∀ name, target ≠ .var name) ∧ target.target? = .error (.invalidTarget target) ∨
    (∃ name, target = .var name ∧ Environment.isConstant name = true ∧
      target.target? = .error (.constantRedefinition name)) ∨
    ∃ name, target = .var name ∧ Environment.isConstant name = false ∧
      target.target? = .ok name := by
  cases target with
  | var name =>
    cases hconstant : Environment.isConstant name with
    | true => exact .inr (.inl ⟨name, rfl, hconstant, if_pos hconstant⟩)
    | false => exact .inr (.inr ⟨name, rfl, hconstant, if_neg (by rw [hconstant]; decide)⟩)
  | number d => exact .inl ⟨nofun, rfl⟩
  | unary op b => exact .inl ⟨nofun, rfl⟩
  | binary op b c => exact .inl ⟨nofun, rfl⟩
  | call f args => exact .inl ⟨nofun, rfl⟩

/-- **An assignment looks at its target, evaluates its right-hand side and binds the target.** -/
theorem evalWithin_define (n : Nat) (target a : Expr) (s : Session) :
    evalWithin n (.call .define [target, a]) s = match target.target? with
      | .error e => (.error e, s)
      | .ok name => match evalWithin n a s with
        | (.ok x, s₁) => (.ok x, { s₁ with env := s₁.env.set name (.number x) })
        | (.error e, s₁) => (.error e, s₁) := by
  obtain ⟨follow, hfollow⟩ := exists_evalWithin_eq n
  rw [hfollow, hfollow, evalWith_define, bind_apply, Evaluation.lift]
  cases target.target? with
  | error e => rfl
  | ok name =>
    change (evalWith follow a >>= _) s = _
    rw [bind_apply]
    obtain ⟨e | x, s₁⟩ := evalWith follow a s
    · rfl
    · rfl

/-- **How an assignment fails**: its target is refused and nothing happens, or its right-hand side
fails and nothing happens after that. -/
theorem define_error_cases {n : Nat} {target a : Expr} {s s' : Session} {e : EvalError}
    (h : evalWithin n (.call .define [target, a]) s = (.error e, s')) :
    (∀ name, target ≠ .var name) ∧ e = .invalidTarget target ∧ s' = s ∨
    (∃ name, target = .var name ∧ Environment.isConstant name = true ∧
      e = .constantRedefinition name ∧ s' = s) ∨
    ∃ name, target = .var name ∧ Environment.isConstant name = false ∧
      evalWithin n a s = (.error e, s') := by
  rw [evalWithin_define] at h
  obtain ⟨hvar, htarget⟩ | ⟨name, hvar, hname, htarget⟩ | ⟨name, hvar, hname, htarget⟩ :=
    target?_cases target
  · rw [htarget] at h
    cases h
    exact .inl ⟨hvar, rfl, rfl⟩
  · rw [htarget] at h
    cases h
    exact .inr (.inl ⟨name, hvar, hname, rfl, rfl⟩)
  · refine .inr (.inr ⟨name, hvar, hname, ?_⟩)
    rw [htarget] at h
    generalize evalWithin n a s = answer at h
    obtain ⟨e' | x, s₁⟩ := answer
    · exact h
    · cases h

/-! ## What has changed -/

/-- **A variable that evaluation has changed was assigned to**, and the index of series outside the
terms of all series. -/
theorem exists_assign_of_get?_ne {n : Nat} {b : Expr} {s : Session} {name : String}
    (h : (evalWithin n b s).2.env.get? name ≠ s.env.get? name) :
    ∃ event ∈ traceWithin n b s,
      event.action = .assign name ∧ (name = Series.indexName → event.inTerm = false) := by
  refine Classical.byContradiction fun hnone => h ?_
  by_cases hname : name = Series.indexName
  · subst hname
    exact spares_evalWithin n b s fun hevent => hnone ⟨_, hevent, rfl, fun _ => rfl⟩
  · exact (frame_variable hname).frames_evalWithin n b s
      fun event hevent haction => hnone ⟨event, hevent, haction, fun heq => absurd heq hname⟩

theorem context_evalWithin (n : Nat) (b : Expr) (s : Session) :
    (evalWithin n b s).2.env.context = s.env.context :=
  (keeps_evalWithin (invariant_settledBy s.env) n b s ⟨rfl, fun _ _ => rfl⟩).context

/-- **What a failed assignment leaves behind.**  A target that is no variable or a constant is
refused, and the session stays as it was.  Otherwise the right-hand side has failed, and the session
is the one that it leaves: the context is the same, every variable that has changed was assigned to
in the course of the right-hand side, and if no assignment was made there, for one because there is
none in the expression and the bindings, the environment is the same. -/
theorem evalWithin_define_error {n : Nat} {target a : Expr} {s s' : Session} {e : EvalError}
    (h : evalWithin n (.call .define [target, a]) s = (.error e, s')) :
    ((∀ name, target ≠ .var name) ∧ e = .invalidTarget target ∧ s' = s ∨
      (∃ name, target = .var name ∧ Environment.isConstant name = true ∧
        e = .constantRedefinition name ∧ s' = s) ∨
      ∃ name, target = .var name ∧ Environment.isConstant name = false ∧
        evalWithin n a s = (.error e, s')) ∧
    s'.env.context = s.env.context ∧
    (∀ name, s'.env.get? name ≠ s.env.get? name → ∃ event ∈ traceWithin n a s,
      event.action = .assign name ∧ (name = Series.indexName → event.inTerm = false)) ∧
    ((∀ event ∈ traceWithin n a s, event.action.function ≠ .define) → s'.env = s.env) ∧
    (a.CallsOnly (· ≠ .define) → s.env.BindsOnly (· ≠ .define) → s'.env = s.env) := by
  have hcases := define_error_cases h
  have hsession : s' = s ∨ s' = (evalWithin n a s).2 := by
    obtain ⟨-, -, hs⟩ | ⟨-, -, -, -, hs⟩ | ⟨-, -, -, ha⟩ := hcases
    · exact .inl hs
    · exact .inl hs
    · exact .inr (by rw [ha])
  have henv : (∀ event ∈ traceWithin n a s, event.action.function ≠ .define) → s'.env = s.env := by
    intro hevents
    obtain rfl | rfl := hsession
    · rfl
    · exact frame_environment.frames_evalWithin n a s hevents
  refine ⟨hcases, ?_, fun name hchanged => ?_, henv, fun ha hs => ?_⟩
  · obtain rfl | rfl := hsession
    · rfl
    · exact context_evalWithin n a s
  · obtain rfl | rfl := hsession
    · exact absurd rfl hchanged
    · exact exists_assign_of_get?_ne hchanged
  · exact henv (only_traceWithin n ha s hs)

/-- `define(y, 1) / 0`, which assigns to `y` and then fails. -/
def assigningQuotient : Expr :=
  .binary .divide (.call .define [.var "y", .number .one]) (.number .zero)

theorem eval_define_assigningQuotient :
    (call .define [.var "x", assigningQuotient]).eval (.initial default (mkStdGen 0)) =
      (.error .divisionByZero,
        ⟨(Environment.initial default).set "y" (.number .one), mkStdGen 0⟩) :=
  rfl

/-- `y` is bound when `define(x, define(y, 1) / 0)` has failed, because it was assigned to on the
way. -/
theorem evalWithin_define_error_assigningQuotient :
    (call .define [.var "x", assigningQuotient]).eval (.initial default (mkStdGen 0)) =
      (.error .divisionByZero,
        ⟨(Environment.initial default).set "y" (.number .one), mkStdGen 0⟩) ∧
    ∃ event ∈ assigningQuotient.trace (.initial default (mkStdGen 0)),
      event.action = .assign "y" := by
  have hchanged : ((Environment.initial default).set "y" (.number .one)).get? "y" ≠
      (Environment.initial default).get? "y" := by
    rw [Environment.get?_set_self]
    exact Option.some_ne_none _
  obtain ⟨-, -, hassigned, -, -⟩ := evalWithin_define_error eval_define_assigningQuotient
  obtain ⟨event, hevent, haction, -⟩ := hassigned "y" hchanged
  exact ⟨eval_define_assigningQuotient, event, hevent, haction⟩

/-- **A failed assignment may change the environment**: the assignment in its right-hand side is
not taken back. -/
theorem not_define_atomic :
    ¬ ∀ (target a : Expr) (s s' : Session) (e : EvalError),
      (call .define [target, a]).eval s = (.error e, s') → s'.env = s.env := by
  intro hatomic
  have hsame := hatomic _ _ _ _ _ eval_define_assigningQuotient
  have hy := congrArg (Environment.get? · "y") hsame
  cases hy

end Expr

end Abacus
