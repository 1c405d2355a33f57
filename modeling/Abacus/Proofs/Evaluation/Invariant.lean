import Abacus.Proofs.Environment
import Abacus.Proofs.Evaluation.Basic
import Abacus.Proofs.Expr.Basic

/-!
# Proofs/Evaluation/Invariant — what every evaluation keeps

Evaluation touches a session in three ways: it draws random numbers, it binds a name that is no
constant to a literal, and it gives the index of a series its old binding back.  A property of
sessions that survives these three is an `Invariant`, and then every evaluation keeps it, whatever
it answers (`keeps_evalWithin`).

`AgreesOn` says that two computations cannot be told apart by a session with the property; it goes
through sequences and through the loop of a series, which is all that a proof about rewritten
expressions needs.

The commonest invariants are about what variables are bound to: `invariant_binds`.
-/

namespace Abacus

namespace Evaluation

variable {α β : Type} {I : Session → Prop}

/-- Whatever the computation answers, a session with the property `I` has it afterwards. -/
def Keeps (I : Session → Prop) (x : Evaluation α) : Prop :=
  ∀ s, I s → I (x s).2

/-- The computations answer and do the same in every session with the property `I`. -/
def AgreesOn (I : Session → Prop) (x y : Evaluation α) : Prop :=
  ∀ s, I s → x s = y s

/-- **A property that survives all that evaluation does to a session.** -/
structure Invariant (I : Session → Prop) : Prop where
  /-- It does not look at the source of random numbers. -/
  random : ∀ s random, I s → I { s with random }
  /-- It survives binding a variable to a literal. -/
  assign : ∀ s name d, Environment.isConstant name = false → I s →
    I { s with env := s.env.set name (.number d) }
  /-- It survives giving the index of a series back the binding of an earlier session. -/
  restore : ∀ s₀ s, I s₀ → I s →
    I { s with env := s.env.restore Series.indexName (s₀.env.get? Series.indexName) }

/-! ## Computations one after another -/

theorem Keeps.pure (a : α) : Keeps I (Pure.pure a : Evaluation α) := fun _ h => h

theorem Keeps.lift (x : Except EvalError α) : Keeps I (Evaluation.lift x) := fun _ h => h

theorem Keeps.inContext (f : Context → Except EvalError α) : Keeps I (Evaluation.inContext f) :=
  fun _ h => h

theorem Keeps.fail (e : EvalError) : Keeps I (Evaluation.fail e : Evaluation α) := fun _ h => h

theorem Keeps.bind {x : Evaluation α} {f : α → Evaluation β} (hx : Keeps I x)
    (hf : ∀ a, Keeps I (f a)) : Keeps I (x >>= f) := by
  intro s hs
  have hx' := hx s hs
  rw [bind_apply]
  generalize x s = answer at hx'
  obtain ⟨e | a, s'⟩ := answer
  · exact hx'
  · exact hf a s' hx'

/-- After an answer that is known, the continuation of it decides. -/
theorem Keeps.bind_lift {x : Except EvalError α} {f : α → Evaluation β}
    (hf : ∀ a, x = .ok a → Keeps I (f a)) : Keeps I (Evaluation.lift x >>= f) := by
  intro s hs
  cases x with
  | error e => exact hs
  | ok a => exact hf a rfl s hs

theorem AgreesOn.refl (x : Evaluation α) : AgreesOn I x x := fun _ _ => rfl

theorem AgreesOn.trans {x y z : Evaluation α} (hxy : AgreesOn I x y) (hyz : AgreesOn I y z) :
    AgreesOn I x z := fun s hs => (hxy s hs).trans (hyz s hs)

theorem AgreesOn.bind {x y : Evaluation α} {f g : α → Evaluation β} (hxy : AgreesOn I x y)
    (hy : Keeps I y) (hfg : ∀ a, AgreesOn I (f a) (g a)) : AgreesOn I (x >>= f) (y >>= g) := by
  intro s hs
  have hy' := hy s hs
  rw [bind_apply, bind_apply, hxy s hs]
  generalize y s = answer at hy'
  obtain ⟨e | a, s'⟩ := answer
  · rfl
  · exact hfg a s' hy'

/-- Two computations that agree with one continuation. -/
theorem AgreesOn.bind_left {x y : Evaluation α} (f : α → Evaluation β) (hxy : AgreesOn I x y) :
    AgreesOn I (x >>= f) (y >>= f) := by
  intro s hs
  rw [bind_apply, bind_apply, hxy s hs]

end Evaluation

open Evaluation

/-! ## Series -/

namespace Series

variable {I : Session → Prop}

theorem isConstant_indexName : Environment.isConstant indexName = false := by decide

/-- Binding the index of a series keeps an invariant. -/
theorem invariant_index (hI : Invariant I) {s : Session} (hs : I s) (index : Decimal) :
    I { s with env := s.env.set indexName (.number index) } :=
  hI.assign s indexName index isConstant_indexName hs

theorem keeps_takeIn (hI : Invariant I) {term : Evaluation Decimal} (hterm : Keeps I term)
    (kind : Series) (index total : Decimal) : Keeps I (takeIn kind term index total) := by
  intro s hs
  have hkept := hterm _ (invariant_index hI hs index)
  rw [takeIn]
  generalize term { s with env := s.env.set indexName (.number index) } = answer at hkept
  obtain ⟨e | x, s'⟩ := answer
  · exact hkept
  · exact hkept

/-- **The loop of a series keeps what its term keeps.** -/
theorem keeps_run (hI : Invariant I) {term : Evaluation Decimal} (hterm : Keeps I term)
    (kind : Series) (upper : Decimal) :
    ∀ index total, Keeps I (run kind term upper index total) := by
  intro index total s hs
  fun_induction run kind term upper index total s with
  | case1 index total s h _ total' s' htotal ih =>
    have hkept := keeps_takeIn hI hterm kind index total s hs
    rw [htotal] at hkept
    exact ih hkept
  | case2 index total s h _ e s' he =>
    have hkept := keeps_takeIn hI hterm kind index total s hs
    rwa [he] at hkept
  | case3 index total s h => exact hs

theorem keeps_evaluate (hI : Invariant I) {term : Evaluation Decimal} (hterm : Keeps I term)
    (kind : Series) (lower upper : Decimal) : Keeps I (kind.evaluate lower upper term) := by
  rw [evaluate]
  split
  · intro s hs
    exact hI.restore s _ hs (keeps_run hI hterm kind upper lower kind.identity s hs)
  · exact Keeps.fail _

theorem agreesOn_takeIn (hI : Invariant I) {t u : Evaluation Decimal} (htu : AgreesOn I t u)
    (kind : Series) (index total : Decimal) :
    AgreesOn I (takeIn kind t index total) (takeIn kind u index total) := by
  intro s hs
  rw [takeIn, takeIn, htu _ (invariant_index hI hs index)]

/-- **The loop of a series cannot tell terms apart that agree.** -/
theorem agreesOn_run (hI : Invariant I) {t u : Evaluation Decimal} (htu : AgreesOn I t u)
    (hu : Keeps I u) (kind : Series) (upper : Decimal) :
    ∀ index total, AgreesOn I (run kind t upper index total) (run kind u upper index total) := by
  intro index total s hs
  fun_induction run kind u upper index total s with
  | case1 index total s h _ total' s' htotal ih =>
    have hkept := keeps_takeIn hI hu kind index total s hs
    rw [htotal] at hkept
    rw [run, dif_pos h, agreesOn_takeIn hI htu kind index total s hs, htotal]
    exact ih hkept
  | case2 index total s h _ e s' he =>
    rw [run, dif_pos h, agreesOn_takeIn hI htu kind index total s hs, he]
  | case3 index total s h => rw [run, dif_neg h]

theorem agreesOn_evaluate (hI : Invariant I) {t u : Evaluation Decimal} (htu : AgreesOn I t u)
    (hu : Keeps I u) (kind : Series) (lower upper : Decimal) :
    AgreesOn I (kind.evaluate lower upper t) (kind.evaluate lower upper u) := by
  rw [evaluate, evaluate]
  split
  · intro s hs
    rw [keeping, keeping, agreesOn_run hI htu hu kind upper lower kind.identity s hs]
  · exact AgreesOn.refl _

end Series

/-! ## Expressions -/

namespace Expr

variable {I : Session → Prop} {follow : String → Expr → Evaluation Decimal}

/-- An assignment binds no constant. -/
theorem isConstant_of_target? {e : Expr} {name : String} (h : e.target? = .ok name) :
    Environment.isConstant name = false := by
  unfold target? at h
  split at h
  · split at h
    · cases h
    · next hc =>
        cases h
        simpa using hc
  · cases h

theorem keeps_draw (hI : Invariant I) : Keeps I Evaluation.draw :=
  fun s hs => hI.random s _ hs

/-- Assigning the value of `a` keeps an invariant that evaluating `a` keeps. -/
theorem keeps_define (hI : Invariant I) {x : Evaluation Decimal} (hx : Keeps I x) (target : Expr) :
    Keeps I (do
      let name ← Evaluation.lift target.target?
      let d ← x
      Evaluation.assign name (.number d)
      pure d) := by
  refine Keeps.bind_lift fun name hname => Keeps.bind hx fun d => ?_
  exact Keeps.bind (fun s hs => hI.assign s name d (isConstant_of_target? hname) hs)
    fun _ => Keeps.pure d

/-- **Evaluation keeps an invariant** if following a binding does. -/
theorem keeps_evalWith (hI : Invariant I) (hf : ∀ name e, Keeps I (follow name e)) (e : Expr) :
    Keeps I (evalWith follow e) := by
  induction e using Expr.induction with
  | number d => exact Keeps.pure d
  | var name =>
    intro s hs
    simp only [evalWith]
    split
    · exact hs
    · exact hs
    · exact hf name _ s hs
  | unary op a iha => exact Keeps.bind iha fun x => Keeps.lift _
  | binary op a b iha ihb =>
    exact Keeps.bind iha fun x => Keeps.bind ihb fun y => Keeps.inContext _
  | call f args ih =>
    unfold evalWith
    split
    · next a _ => exact Keeps.bind (ih a (by simp)) fun x => Keeps.inContext _
    · next a b _ =>
        exact Keeps.bind (ih a (by simp)) fun x => Keeps.bind (ih b (by simp)) fun y =>
          Keeps.inContext _
    · next target a _ => exact keeps_define hI (ih a (by simp)) target
    · next kind lower upper term _ =>
        exact Keeps.bind (ih lower (by simp)) fun x => Keeps.bind (ih upper (by simp)) fun y =>
          Series.keeps_evaluate hI (ih term (by simp)) kind x y
    · exact keeps_draw hI
    · exact Keeps.fail _

/-- **Evaluation keeps every invariant**, however deep bindings are nested. -/
theorem keeps_evalWithin (hI : Invariant I) : ∀ (n : Nat) (e : Expr), Keeps I (evalWithin n e)
  | 0, e => keeps_evalWith hI (fun _ _ => Keeps.fail _) e
  | n + 1, e => keeps_evalWith hI (fun _ e => keeps_evalWithin hI n e) e

theorem keeps_eval (hI : Invariant I) (e : Expr) : Keeps I e.eval :=
  fun s hs => keeps_evalWithin hI (nestingLimit s.env) e s hs

end Expr

/-! ## What variables are bound to

Evaluation binds literals and gives back bindings, so what all bindings have in common they keep, if
literals have it too. -/

/-- Whatever a variable is bound to satisfies `P`. -/
def Environment.Binds (P : String → Expr → Prop) (env : Environment) : Prop :=
  ∀ name e, env.get? name = some e → P name e

/-- Every variable that is bound is bound to a literal. -/
def Environment.LiteralsOnly (env : Environment) : Prop :=
  env.Binds fun _ e => ∃ d, e = .number d

variable {P : String → Expr → Prop}

theorem Environment.Binds.set {env : Environment} (h : env.Binds P) {name : String} {e : Expr}
    (he : P name e) : (env.set name e).Binds P := by
  intro other e' he'
  by_cases hname : other = name
  · subst hname
    obtain rfl := Option.some.inj ((env.get?_set_self other e).symm.trans he')
    exact he
  · exact h other e' ((env.get?_set_of_ne hname e).symm.trans he')

theorem Environment.binds_initial (hP : ∀ name d, P name (.number d)) (c : Context) :
    (Environment.initial c).Binds P := by
  intro name e he
  simp only [Environment.get?, Environment.initial, Bindings.get?] at he
  split at he
  · cases he
    exact hP name _
  · split at he
    · cases he
      exact hP name _
    · cases he

/-- **What all bindings satisfy they satisfy after every evaluation**, if literals do. -/
theorem invariant_binds (hP : ∀ name d, P name (.number d)) :
    Invariant fun s : Session => s.env.Binds P where
  random _ _ h := h
  assign _ name d _ h := h.set (hP name d)
  restore s₀ s h₀ h other e he := by
    by_cases hname : other = Series.indexName
    · subst hname
      exact h₀ _ e ((s.env.get?_restore_self _ _).symm.trans he)
    · exact h other e ((s.env.get?_restore_of_ne hname _).symm.trans he)

/-- **Evaluation binds variables to literals only.** -/
theorem invariant_literalsOnly : Invariant fun s : Session => s.env.LiteralsOnly :=
  invariant_binds fun _ d => ⟨d, rfl⟩

theorem Environment.literalsOnly_initial (c : Context) : (Environment.initial c).LiteralsOnly :=
  Environment.binds_initial (fun _ d => ⟨d, rfl⟩) c

end Abacus
