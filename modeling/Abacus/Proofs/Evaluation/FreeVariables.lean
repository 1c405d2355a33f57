import Abacus.Proofs.Evaluation.Trace

/-!
# Proofs/Evaluation/FreeVariables — evaluation reads nothing but free variables

Variables are not scoped: there is one environment, which assignments change, and in which a series
binds its index for a while.  All the same an expression has free variables (`Expr.free`): the
variables that occur in it, but for the target of an assignment, which is written and not read, and
for the index in the term of a series, which the series has bound by then.

In two sessions that bind variables to literals only and agree on the free variables, an expression
has one answer.  The proof runs both evaluations side by side (`Blind`).  It has to carry more than
the free variables: whatever names the sessions agree on, they agree on them afterwards.  For the
term of a series the index is one of those names, and giving it its old binding back takes it out
again.
-/

namespace Abacus

open Evaluation

/-! ## Free variables -/

namespace Expr

mutual

/-- **The variables that an expression reads from the session that it is evaluated in.** -/
def free : Expr → List String
  | .number _ => []
  | .var name => [name]
  | .unary _ a => free a
  | .binary _ a b => free a ++ free b
  | .call .define (.var _ :: args) => freeAll args
  | .call .sum [lower, upper, term] =>
    free lower ++ free upper ++ (free term).filter fun name => name ≠ Series.indexName
  | .call .product [lower, upper, term] =>
    free lower ++ free upper ++ (free term).filter fun name => name ≠ Series.indexName
  | .call _ args => freeAll args

/-- `free` for each of a list. -/
def freeAll : List Expr → List String
  | [] => []
  | e :: es => free e ++ freeAll es

end

variable {f : Builtin}

theorem free_call_unary {apply : Context → Decimal → Except EvalError Decimal}
    (h : f.rule = .unary apply) (a : Expr) : free (.call f [a]) = free a := by
  have hcall : free (.call f [a]) = freeAll [a] := by
    cases f with
    | define => cases h
    | _ => rfl
  rw [hcall, freeAll, freeAll, List.append_nil]

theorem free_call_binary {apply : Context → Decimal → Decimal → Except EvalError Decimal}
    (h : f.rule = .binary apply) (a b : Expr) : free (.call f [a, b]) = free a ++ free b := by
  have hcall : free (.call f [a, b]) = freeAll [a, b] := by
    cases f with
    | define => cases h
    | _ => rfl
  rw [hcall, freeAll, freeAll, freeAll, List.append_nil]

/-- The right side of an assignment is read. -/
theorem mem_free_define {target a : Expr} {name : String} (h : name ∈ free a) :
    name ∈ free (.call .define [target, a]) := by
  cases target with
  | var _ => exact List.mem_append_left _ h
  | _ => exact List.mem_append_right _ (List.mem_append_left _ h)

/-- The term of a series reads the index of that series. -/
theorem free_series {kind : Series} (h : f.rule = .series kind) (lower upper term : Expr) :
    free (.call f [lower, upper, term]) =
      free lower ++ free upper ++ (free term).filter fun name => name ≠ Series.indexName := by
  cases f with
  | sum => rfl
  | product => rfl
  | _ => cases h

end Expr

/-! ## Sessions that agree on some names -/

/-- **Sessions that only names without the property `A` can tell apart**, and in which all variables
are bound to literals. -/
structure Session.Agree (A : String → Prop) (s s' : Session) : Prop where
  random : s.random = s'.random
  context : s.env.context = s'.env.context
  literals : s.env.LiteralsOnly
  literals' : s'.env.LiteralsOnly
  bindings : ∀ name, A name → s.env.get? name = s'.env.get? name

namespace Session.Agree

variable {A B : String → Prop} {s s' : Session}

theorem mono (h : Session.Agree B s s') (hAB : ∀ name, A name → B name) : Session.Agree A s s' :=
  ⟨h.random, h.context, h.literals, h.literals', fun name hname => h.bindings name (hAB name hname)⟩

/-- Binding a name to one number in both sessions makes them agree on that name too. -/
theorem set (h : Session.Agree A s s') (name : String) (d : Decimal) :
    Session.Agree (fun other => other = name ∨ A other)
      { s with env := s.env.set name (.number d) } { s' with env := s'.env.set name (.number d) }
    where
  random := h.random
  context := h.context
  literals := h.literals.set ⟨d, rfl⟩
  literals' := h.literals'.set ⟨d, rfl⟩
  bindings other hother := by
    by_cases hname : other = name
    · subst hname
      rw [Environment.get?_set_self, Environment.get?_set_self]
    · rw [Environment.get?_set_of_ne _ hname, Environment.get?_set_of_ne _ hname]
      exact h.bindings other (hother.resolve_left hname)

/-- Giving the index of series back its bindings of earlier sessions that agreed. -/
theorem restore (h : Session.Agree A s s') {s₀ s₀' : Session} (h₀ : Session.Agree A s₀ s₀') :
    Session.Agree A
      { s with env := s.env.restore Series.indexName (s₀.env.get? Series.indexName) }
      { s' with env := s'.env.restore Series.indexName (s₀'.env.get? Series.indexName) } where
  random := h.random
  context := by
    rw [Environment.context_restore, Environment.context_restore, h.context]
  literals := invariant_literalsOnly.restore s₀ s h₀.literals h.literals
  literals' := invariant_literalsOnly.restore s₀' s' h₀.literals' h.literals'
  bindings other hother := by
    by_cases hname : other = Series.indexName
    · subst hname
      rw [Environment.get?_restore_self, Environment.get?_restore_self]
      exact h₀.bindings _ hother
    · rw [Environment.get?_restore_of_ne _ hname, Environment.get?_restore_of_ne _ hname]
      exact h.bindings other hother

end Session.Agree

/-! ## Computations that do not see other names -/

/-- **From sessions that agree on the names with `A`, the computations have one answer**, and the
sessions agree on these names afterwards. -/
def Blind {α : Type} (A : String → Prop) (x x' : Evaluation α) : Prop :=
  ∀ s s', Session.Agree A s s' → (x s).1 = (x' s').1 ∧ Session.Agree A (x s).2 (x' s').2

namespace Blind

variable {α β : Type} {A : String → Prop} {x x' : Evaluation α}

theorem lift (y : Except EvalError α) : Blind A (Evaluation.lift y) (Evaluation.lift y) :=
  fun _ _ hs => ⟨rfl, hs⟩

theorem inContext (g : Context → Except EvalError α) :
    Blind A (Evaluation.inContext g) (Evaluation.inContext g) :=
  fun _ _ hs => ⟨congrArg g hs.context, hs⟩

theorem bind {g g' : α → Evaluation β} (hx : Blind A x x') (hg : ∀ a, Blind A (g a) (g' a)) :
    Blind A (x >>= g) (x' >>= g') := by
  intro s s' hs
  have hstep := hx s s' hs
  rw [bind_apply, bind_apply]
  generalize x s = answer at hstep
  generalize x' s' = answer' at hstep
  obtain ⟨answer, s₁⟩ := answer
  obtain ⟨answer', s₁'⟩ := answer'
  obtain ⟨rfl, hs₁⟩ := hstep
  cases answer with
  | error e => exact ⟨rfl, hs₁⟩
  | ok a => exact hg a s₁ s₁' hs₁

theorem assign (name : String) (d : Decimal) :
    Blind A (Evaluation.assign name (.number d)) (Evaluation.assign name (.number d)) :=
  fun _ _ hs => ⟨rfl, (hs.set name d).mono fun _ => .inr⟩

theorem draw : Blind A Evaluation.draw Evaluation.draw := by
  intro s s' hs
  rw [Evaluation.draw, Evaluation.draw, hs.random]
  exact ⟨rfl, rfl, hs.context, hs.literals, hs.literals', hs.bindings⟩

/-- Giving the index of series back what it was bound to. -/
theorem keeping (hx : Blind A x x') :
    Blind A (Evaluation.keeping Series.indexName x) (Evaluation.keeping Series.indexName x') :=
  fun s s' hs => ⟨(hx s s' hs).1, (hx s s' hs).2.restore hs⟩

end Blind

/-! ## Series -/

namespace Series

variable {A : String → Prop} {term term' : Evaluation Decimal}

/-- One round of a series: the term sees the index as well. -/
theorem agree_round (hterm : Blind (fun name => name = indexName ∨ A name) term term')
    {s s' : Session} (hs : Session.Agree A s s') (index : Decimal) :
    (term (withIndex s index)).1 = (term' (withIndex s' index)).1 ∧
      Session.Agree A (term (withIndex s index)).2 (term' (withIndex s' index)).2 := by
  obtain ⟨hanswer, hagree⟩ := hterm _ _ (hs.set indexName index)
  exact ⟨hanswer, hagree.mono fun _ => .inr⟩

/-- **The loop of a series sees what its term sees, but for the index.** -/
theorem blind_run (hterm : Blind (fun name => name = indexName ∨ A name) term term')
    (kind : Series) (upper index total : Decimal) :
    Blind A (kind.run term upper index total) (kind.run term' upper index total) := by
  intro s
  refine rounds (P := fun index total s => ∀ s', Session.Agree A s s' →
    (kind.run term upper index total s).1 = (kind.run term' upper index total s').1 ∧
      Session.Agree A (kind.run term upper index total s).2
        (kind.run term' upper index total s').2) kind term upper ?_ ?_ ?_ ?_ index total s
  · intro index total s h s' hs
    rw [run_of_not h, run_of_not h]
    exact ⟨rfl, hs⟩
  · intro index total s e s₁ h he s' hs
    obtain ⟨hanswer, hagree⟩ := agree_round hterm hs index
    rw [he] at hanswer hagree
    have he' : term' (withIndex s' index) = (.error e, (term' (withIndex s' index)).2) :=
      Prod.ext hanswer.symm rfl
    rw [run_of_error h he, run_of_error h he']
    exact ⟨rfl, hagree⟩
  · intro index total s x e s₁ h hx he s' hs
    obtain ⟨hanswer, hagree⟩ := agree_round hterm hs index
    rw [hx] at hanswer hagree
    have hx' : term' (withIndex s' index) = (.ok x, (term' (withIndex s' index)).2) :=
      Prod.ext hanswer.symm rfl
    rw [run_of_stop h hx he, run_of_stop h hx' he]
    exact ⟨rfl, hagree⟩
  · intro index total s x total' s₁ h hx htotal ih s' hs
    obtain ⟨hanswer, hagree⟩ := agree_round hterm hs index
    rw [hx] at hanswer hagree
    have hx' : term' (withIndex s' index) = (.ok x, (term' (withIndex s' index)).2) :=
      Prod.ext hanswer.symm rfl
    rw [run_of_ok h hx htotal, run_of_ok h hx' htotal]
    exact ih _ hagree

theorem blind_evaluate (hterm : Blind (fun name => name = indexName ∨ A name) term term')
    (kind : Series) (lower upper : Decimal) :
    Blind A (kind.evaluate lower upper term) (kind.evaluate lower upper term') := by
  rw [evaluate, evaluate]
  split
  · exact (blind_run hterm kind upper lower kind.identity).keeping
  · exact Blind.lift _

end Series

/-! ## Expressions -/

namespace Expr

variable {follow follow' : String → Expr → Evaluation Decimal} {A : String → Prop}

theorem blind_var {name : String} (hname : A name) :
    Blind A (evalWith follow (.var name)) (evalWith follow' (.var name)) := by
  intro s s' hs
  have hbinding := hs.bindings name hname
  cases hget : s.env.get? name with
  | none =>
    rw [evalWith_var_unbound hget, evalWith_var_unbound (hbinding.symm.trans hget)]
    exact ⟨rfl, hs⟩
  | some e =>
    obtain ⟨d, rfl⟩ := hs.literals name e hget
    rw [evalWith_var_literal hget, evalWith_var_literal (hbinding.symm.trans hget)]
    exact ⟨rfl, hs⟩

/-- **Evaluation sees only free variables.**  Where variables are bound to literals no binding is
followed, so it does not matter how that would be done. -/
theorem blind_evalWith {e : Expr} :
    (∀ name ∈ e.free, A name) → Blind A (evalWith follow e) (evalWith follow' e) := by
  induction e using Expr.induction generalizing A with
  | number d => exact fun _ => Blind.lift (.ok d)
  | var name => exact fun h => blind_var (h name (List.mem_singleton.mpr rfl))
  | unary op a iha => exact fun h => (iha h).bind fun x => Blind.lift _
  | binary op a b iha ihb =>
    intro h
    obtain ⟨ha, hb⟩ := List.forall_mem_append.mp h
    exact (iha ha).bind fun x => (ihb hb).bind fun y => Blind.inContext _
  | call f args ih =>
    intro h
    by_cases hlength : args.length = f.arity
    · obtain ⟨apply, a, hrule, rfl⟩ | ⟨apply, a, b, hrule, rfl⟩ | ⟨target, a, rfl, rfl⟩ |
        ⟨kind, lower, upper, term, hrule, rfl⟩ | ⟨rfl, rfl⟩ := call_shape hlength
      · rw [free_call_unary hrule] at h
        rw [evalWith_call_unary hrule, evalWith_call_unary hrule]
        exact (ih a (by simp) h).bind fun x => Blind.inContext _
      · rw [free_call_binary hrule] at h
        obtain ⟨ha, hb⟩ := List.forall_mem_append.mp h
        rw [evalWith_call_binary hrule, evalWith_call_binary hrule]
        exact (ih a (by simp) ha).bind fun x => (ih b (by simp) hb).bind fun y =>
          Blind.inContext _
      · have ha : ∀ name ∈ a.free, A name := fun name hname => h name (mem_free_define hname)
        rw [evalWith_define, evalWith_define]
        exact (Blind.lift _).bind fun name => (ih a (by simp) ha).bind fun x =>
          (Blind.assign name x).bind fun _ => Blind.lift _
      · rw [free_series hrule] at h
        obtain ⟨hbounds, hterm⟩ := List.forall_mem_append.mp h
        obtain ⟨hlower, hupper⟩ := List.forall_mem_append.mp hbounds
        have hterm' : ∀ name ∈ term.free, name = Series.indexName ∨ A name := by
          intro name hname
          by_cases hindex : name = Series.indexName
          · exact .inl hindex
          · exact .inr (hterm name (List.mem_filter.mpr ⟨hname, decide_eq_true hindex⟩))
        rw [evalWith_series hrule, evalWith_series hrule]
        exact (ih lower (by simp) hlower).bind fun x => (ih upper (by simp) hupper).bind fun y =>
          kind.blind_evaluate (ih term (by simp) hterm') x y
      · exact Blind.draw
    · rw [evalWith_call_of_length_ne hlength, evalWith_call_of_length_ne hlength]
      exact Blind.lift _

/-- Evaluation sees only free variables, however deep bindings may be nested. -/
theorem blind_evalWithin {e : Expr} (h : ∀ name ∈ e.free, A name) (n n' : Nat) :
    Blind A (evalWithin n e) (evalWithin n' e) := by
  obtain ⟨follow, hfollow⟩ := exists_evalWithin_eq n
  obtain ⟨follow', hfollow'⟩ := exists_evalWithin_eq n'
  rw [hfollow, hfollow']
  exact blind_evalWith h

/-- **Evaluation depends on free variables only.**  Where two sessions bind variables to literals,
have one context and one source of random numbers, and agree on the free variables of an expression,
it has the same answer in both, draws the same random numbers, and makes them differ on no name on
which they did not differ before.  In particular, a series whose bounds do not read the index does
not see what the index was bound to. -/
theorem eval_eq_of_free {s s' : Session} (hs : s.env.LiteralsOnly) (hs' : s'.env.LiteralsOnly)
    (hcontext : s.env.context = s'.env.context) (hrandom : s.random = s'.random) :
    (∀ e : Expr, (∀ name ∈ e.free, s.env.get? name = s'.env.get? name) →
      (e.eval s).1 = (e.eval s').1 ∧ (e.eval s).2.random = (e.eval s').2.random ∧
      ∀ name, (e.eval s).2.env.get? name ≠ (e.eval s').2.env.get? name →
        s.env.get? name ≠ s'.env.get? name) ∧
    (∀ f kind lower upper term d, f.rule = .series kind →
      Series.indexName ∉ lower.free → Series.indexName ∉ upper.free →
      ((call f [lower, upper, term]).eval (Series.withIndex s d)).1 =
        ((call f [lower, upper, term]).eval s).1) := by
  refine ⟨fun e hfree => ?_, fun f kind lower upper term d hrule hlower hupper => ?_⟩
  · have hagree : Session.Agree (fun name => s.env.get? name = s'.env.get? name) s s' :=
      ⟨hrandom, hcontext, hs, hs', fun _ h => h⟩
    obtain ⟨hanswer, hafter⟩ := blind_evalWithin hfree _ _ s s' hagree
    exact ⟨hanswer, hafter.random, fun name hdiffer hsame => hdiffer (hafter.bindings name hsame)⟩
  · have hagree : Session.Agree (fun name => name ≠ Series.indexName) (Series.withIndex s d) s :=
      ⟨rfl, rfl, hs.set ⟨d, rfl⟩, hs, fun name hname => s.env.get?_set_of_ne hname _⟩
    have hfree : ∀ name ∈ (call f [lower, upper, term]).free, name ≠ Series.indexName := by
      rw [free_series hrule]
      rintro name hname rfl
      rcases List.mem_append.mp hname with hbounds | hterm
      · exact (List.mem_append.mp hbounds).elim hlower hupper
      · exact of_decide_eq_true (List.mem_filter.mp hterm).2 rfl
    exact (blind_evalWithin hfree _ _ _ _ hagree).1

/-- `y + sum(1, y, define(x, i) * i)`, which reads `y` and nothing else. -/
def sumOfSquares : Expr :=
  .binary .plus (.var "y") (.call .sum [.number .one, .var "y",
    .binary .times (.call .define [.var "x", .var "i"]) (.var "i")])

/-- A session that starts with one variable bound. -/
def sessionWithBound : Session :=
  ⟨(Environment.initial default).set "y" (.number ⟨3, 0⟩), mkStdGen 0⟩

theorem eval_eq_of_free_sumOfSquares :
    sumOfSquares.free = ["y", "y"] ∧
    (sumOfSquares.eval sessionWithBound).1 =
      (sumOfSquares.eval (Series.withIndex sessionWithBound ⟨5, 0⟩)).1 ∧
    (sumOfSquares.eval sessionWithBound).2.env.get? "x" =
      (sumOfSquares.eval (Series.withIndex sessionWithBound ⟨5, 0⟩)).2.env.get? "x" ∧
    ((call .sum [.number .one, .var "y", .var "i"]).eval
        (Series.withIndex sessionWithBound ⟨5, 0⟩)).1 =
      ((call .sum [.number .one, .var "y", .var "i"]).eval sessionWithBound).1 := by
  have hs : sessionWithBound.env.LiteralsOnly :=
    (Environment.literalsOnly_initial default).set ⟨⟨3, 0⟩, rfl⟩
  have hs' : (Series.withIndex sessionWithBound ⟨5, 0⟩).env.LiteralsOnly := hs.set ⟨⟨5, 0⟩, rfl⟩
  have hfree : sumOfSquares.free = ["y", "y"] := rfl
  have hagree : ∀ name ∈ sumOfSquares.free, sessionWithBound.env.get? name =
      (Series.withIndex sessionWithBound ⟨5, 0⟩).env.get? name := by
    intro name hname
    obtain rfl : name = "y" := by simpa [hfree] using hname
    rfl
  obtain ⟨hread, hseries⟩ := eval_eq_of_free hs hs' rfl rfl
  obtain ⟨hanswer, -, hdiffer⟩ := hread sumOfSquares hagree
  refine ⟨hfree, hanswer, ?_, hseries .sum .sum _ _ _ _ rfl (by decide) (by decide)⟩
  exact Classical.byContradiction fun hx => hdiffer "x" hx rfl

end Expr

end Abacus
