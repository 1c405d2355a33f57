import Abacus.Proofs.Builtin
import Abacus.Proofs.Evaluation.Trace

/-!
# Proofs/Evaluation/Congruence — evaluation does not see how a number is written

Equal expressions, evaluated in environments that are alike, go the same way, step by step: both
have answers of one value or both fail for the same cause, and the environments are alike again
(`Lockstep`).  This has its limits.  Results of floating-point functions and random numbers depend
on more than values, and a scale that does not fit in 64 bits shows how a number is written: where
it is noticed the evaluation fails for it, and where it is not, the program stops.

So `eval_congr` asks that neither evaluation floats, fails because of a scale, or stops.  Without
the last of these it would not hold: `eval_product_stops`.
-/

namespace Abacus

open Evaluation
open Decimal (SameValue)

/-! ## Equal expressions -/

namespace Expr

variable {e : Expr}

theorem equal_number {d d' : Decimal} :
    (number d).equal (.number d') = true ↔ d.SameValue d' :=
  Decimal.equal_iff

theorem equal_number_left {d : Decimal} :
    (number d).equal e = true ↔ ∃ d', e = .number d' ∧ d.SameValue d' := by
  cases e with
  | number d' => simp [equal_number]
  | _ => simp [equal]

/-- What is equal to no literal is none. -/
theorem ne_number_of_equal {e e' : Expr} (h : e.equal e' = true) (he : ∀ d, e ≠ .number d) :
    ∀ d, e' ≠ .number d := by
  rintro d rfl
  cases e with
  | number d' => exact he d' rfl
  | _ => exact absurd h Bool.false_ne_true

theorem equal_var {name : String} : (var name).equal e = true ↔ e = .var name := by
  cases e with
  | var other => simp [equal, eq_comm (a := name)]
  | _ => simp [equal]

theorem equal_unary {op : Operator} {a : Expr} :
    (unary op a).equal e = true ↔ ∃ a', e = .unary op a' ∧ a.equal a' = true := by
  cases e with
  | unary op' a' => simp [equal, eq_comm (a := op)]
  | _ => simp [equal]

theorem equal_binary {op : Operator} {a b : Expr} :
    (binary op a b).equal e = true ↔
      ∃ a' b', e = .binary op a' b' ∧ a.equal a' = true ∧ b.equal b' = true := by
  cases e with
  | binary op' a' b' => simp [equal, eq_comm (a := op), and_assoc]
  | _ => simp [equal]

theorem equalAll_iff : ∀ {es es' : List Expr},
    equalAll es es' = true ↔ List.Forall₂ (fun a a' => a.equal a' = true) es es'
  | [], [] => by simp [equalAll]
  | [], _ :: _ => by simp [equalAll]
  | _ :: _, [] => by simp [equalAll]
  | _ :: _, _ :: _ => by
    rw [equalAll, Bool.and_eq_true, equalAll_iff, List.forall₂_cons]

theorem equal_call {f : Builtin} {args : List Expr} :
    (call f args).equal e = true ↔
      ∃ args', e = .call f args' ∧ List.Forall₂ (fun a a' => a.equal a' = true) args args' := by
  cases e with
  | call f' args' => simp [equal, eq_comm (a := f), equalAll_iff]
  | _ => simp [equal]

theorem equal_refl (e : Expr) : e.equal e = true := by
  induction e using Expr.induction with
  | number d => exact equal_number.mpr rfl
  | var name => exact equal_var.mpr rfl
  | unary op a iha => exact equal_unary.mpr ⟨a, rfl, iha⟩
  | binary op a b iha ihb => exact equal_binary.mpr ⟨a, b, rfl, iha, ihb⟩
  | call f args ih => exact equal_call.mpr ⟨args, rfl, List.forall₂_same.mpr ih⟩

end Expr

/-! ## Environments that are alike -/

/-- **Environments that differ only in how numbers are written.** -/
structure Environment.Alike (env env' : Environment) : Prop where
  context : env.context = env'.context
  names : env.bindings.names.Perm env'.bindings.names
  bindings : ∀ name, Option.Rel (fun e e' => e.equal e' = true) (env.get? name) (env'.get? name)

namespace Environment.Alike

variable {env env' : Environment}

theorem refl (env : Environment) : env.Alike env where
  context := rfl
  names := .rfl
  bindings name := by
    cases env.get? name with
    | none => exact .none
    | some e => exact .some e.equal_refl

theorem set (h : env.Alike env') (name : String) {e e' : Expr} (he : e.equal e' = true) :
    (env.set name e).Alike (env'.set name e') where
  context := h.context
  names := by
    rw [Environment.set, Environment.set, Bindings.names_set, Bindings.names_set,
      if_congr h.names.mem_iff rfl rfl]
    split
    · exact h.names
    · exact h.names.append_right [name]
  bindings other := by
    by_cases hname : other = name
    · subst hname
      rw [get?_set_self, get?_set_self]
      exact .some he
    · rw [get?_set_of_ne _ hname, get?_set_of_ne _ hname]
      exact h.bindings other

theorem restore (h : env.Alike env') (name : String) {saved saved' : Option Expr}
    (hsaved : Option.Rel (fun e e' => e.equal e' = true) saved saved') :
    (env.restore name saved).Alike (env'.restore name saved') where
  context := by
    rw [context_restore, context_restore, h.context]
  names := by
    cases hsaved with
    | some he => exact (h.set name he).names
    | none =>
      show (env.bindings.erase name).names.Perm (env'.bindings.erase name).names
      rw [Bindings.names_erase, Bindings.names_erase]
      exact h.names.filter _
  bindings other := by
    by_cases hname : other = name
    · subst hname
      rw [get?_restore_self, get?_restore_self]
      exact hsaved
    · rw [get?_restore_of_ne _ hname, get?_restore_of_ne _ hname]
      exact h.bindings other

theorem length_eq (h : env.Alike env') : env.bindings.length = env'.bindings.length := by
  simpa [Bindings.names] using h.names.length_eq

end Environment.Alike

/-! ## Evaluations in step -/

/-- The functions whose results depend on nothing but the values of their arguments. -/
def Builtin.IsExact (f : Builtin) : Prop :=
  f.isFloating = false ∧ f ≠ .power ∧ f ≠ .random

/-- Whether an action depends on more than the values of numbers. -/
def Action.Floats : Action → Prop
  | .draw => True
  | .apply f values => f.Floats values
  | _ => False

/-- What an exact function does itself depends on values only. -/
theorem Action.not_floats {action : Action} (h : action.function.IsExact) : ¬ action.Floats := by
  obtain ⟨hfloating, hpower, hrandom⟩ := h
  cases action with
  | apply f values =>
    rintro (hf | ⟨hf, -⟩)
    · exact absurd (hf.symm.trans hfloating) (by decide)
    · exact hpower hf
  | draw => exact absurd rfl hrandom
  | assign name => exact id
  | accumulate kind total term => exact id

/-- Nothing that happens depends on more than the values of numbers. -/
def Trace.Exact (t : Trace) (s : Session) : Prop :=
  ∀ event ∈ t s, ¬ event.action.Floats

theorem Trace.not_floats_of_exact {action : Action} {s : Session}
    (h : (Trace.one action).Exact s) : ¬ action.Floats :=
  h ⟨action, false⟩ (List.mem_singleton.mpr rfl)

/-- **From sessions that are alike, the computations go the same way**: unless one of them is not
exact or has a scale that leaves 64 bits, the answers are alike, and the sessions afterwards. -/
def Lockstep {α : Type} (rel : α → α → Prop) (t : Trace) (x : Evaluation α) (t' : Trace)
    (x' : Evaluation α) : Prop :=
  ∀ s s', s.env.Alike s'.env → t.Exact s → t'.Exact s' →
    KeepsScale (x s).1 → KeepsScale (x' s').1 →
      AnswersAlike rel (x s).1 (x' s').1 ∧ (x s).2.env.Alike (x' s').2.env

namespace Lockstep

variable {α β : Type} {rel : α → α → Prop} {rel' : β → β → Prop} {t t' : Trace}
  {x x' : Evaluation α}

/-- Computations that leave the session alone. -/
theorem still (hx : ∀ s, (x s).2 = s) (hx' : ∀ s, (x' s).2 = s)
    (h : ∀ s s', s.env.Alike s'.env → t.Exact s → Agrees rel (x s).1 (x' s').1) :
    Lockstep rel t x t' x' := by
  intro s s' hs ht _ hscale hscale'
  rw [hx, hx']
  exact ⟨h s s' hs ht hscale hscale', hs⟩

theorem bind {u u' : α → Trace} {f f' : α → Evaluation β} (h : Lockstep rel t x t' x')
    (hf : ∀ a a', rel a a' → Lockstep rel' (u a) (f a) (u' a') (f' a')) :
    Lockstep rel' (t.andThen x u) (x >>= f) (t'.andThen x' u') (x' >>= f') := by
  intro s s' hs ht ht'
  rw [Trace.Exact, Trace.andThen, List.forall_mem_append] at ht ht'
  have hstep := h s s' hs ht.1 ht'.1
  obtain ⟨-, ht⟩ := ht
  obtain ⟨-, ht'⟩ := ht'
  rw [bind_apply, bind_apply]
  generalize x s = answer at hstep ht
  generalize x' s' = answer' at hstep ht'
  intro hscale hscale'
  -- an answer is not like a failure, so both computations go on or both end here
  obtain ⟨e | a, s₁⟩ := answer
  · obtain ⟨e' | a', s₁'⟩ := answer'
    · exact hstep hscale.error hscale'.error
    · exact (hstep hscale.error (.ok a')).1.elim
  · obtain ⟨e' | a', s₁'⟩ := answer'
    · exact (hstep (.ok a) hscale'.error).1.elim
    · obtain ⟨hanswer, hs₁⟩ := hstep (.ok a) (.ok a')
      exact hf a a' hanswer s₁ s₁' hs₁ ht ht' hscale hscale'

/-- A last step that is not in the trace. -/
theorem bind_silent {f f' : α → Evaluation β} (h : Lockstep rel t x t' x')
    (hf : ∀ a a', rel a a' → Lockstep rel' Trace.nothing (f a) Trace.nothing (f' a')) :
    Lockstep rel' t (x >>= f) t' (x' >>= f') := by
  have hbind := h.bind hf
  rwa [Trace.andThen_nothing, Trace.andThen_nothing] at hbind

/-- Giving a name back what it was bound to. -/
theorem keeping (h : Lockstep rel t x t' x') (name : String) :
    Lockstep rel t (Evaluation.keeping name x) t' (Evaluation.keeping name x') := by
  intro s s' hs ht ht' hscale hscale'
  obtain ⟨hanswer, hs₁⟩ := h s s' hs ht ht' hscale hscale'
  exact ⟨hanswer, hs₁.restore name (hs.bindings name)⟩

theorem lift {y y' : Except EvalError α} (h : Agrees rel y y') :
    Lockstep rel t (Evaluation.lift y) t' (Evaluation.lift y') :=
  still (fun _ => rfl) (fun _ => rfl) fun _ _ _ _ => h

theorem fail {e e' : EvalError} (h : e.ctorIdx = e'.ctorIdx) :
    Lockstep rel t (Evaluation.fail e) t' (Evaluation.fail e') :=
  lift (Agrees.error h)

theorem inContext {g g' : Context → Except EvalError α}
    (h : ∀ s c, t.Exact s → Agrees rel (g c) (g' c)) :
    Lockstep rel t (Evaluation.inContext g) t' (Evaluation.inContext g') := by
  refine still (fun _ => rfl) (fun _ => rfl) fun s s' hs ht => ?_
  rw [Evaluation.inContext, Evaluation.inContext, hs.context]
  exact h s s'.env.context ht

/-- Assigning numbers of one value. -/
theorem assign (name : String) {d d' : Decimal} (hd : d.SameValue d') :
    Lockstep SameValue t (Evaluation.assign name (.number d) >>= fun _ => pure d)
      t' (Evaluation.assign name (.number d') >>= fun _ => pure d') :=
  fun _ _ hs _ _ _ _ => ⟨hd, hs.set name (Expr.equal_number.mpr hd)⟩

end Lockstep

/-! ## Series in step -/

namespace Series

variable {kind : Series} {term term' : Evaluation Decimal} {t t' : Trace}
  {upper upper' index index' total total' : Decimal}

theorem atMost_congr (hindex : index.SameValue index') (hupper : upper.SameValue upper') :
    index.atMost upper = index'.atMost upper' := by
  rw [Bool.eq_iff_iff, Decimal.atMost_iff, Decimal.atMost_iff, hindex, hupper]

/-- The term for one index. -/
def termAt (term : Evaluation Decimal) (index : Decimal) : Evaluation Decimal :=
  fun s => term (withIndex s index)

/-- What the term for one index does. -/
def traceTermAt (t : Trace) (index : Decimal) : Trace :=
  fun s => (t (withIndex s index)).map (⟨·.action, true⟩)

theorem takeIn_eq_bind (kind : Series) (term : Evaluation Decimal) (index total : Decimal) :
    takeIn kind term index total =
      termAt term index >>= fun x => Evaluation.lift (kind.combine total x) := by
  funext s
  rw [bind_apply, termAt]
  cases hx : term (withIndex s index) with
  | mk answer s' =>
    cases answer with
    | ok x => exact takeIn_of_ok hx
    | error e => exact takeIn_of_error hx

theorem run_eq_bind (h : index.atMost upper = true) :
    run kind term upper index total =
      takeIn kind term index total >>= run kind term upper index.next := by
  funext s
  rw [bind_apply, run, dif_pos h]
  obtain ⟨e | total', s'⟩ := takeIn kind term index total s
  · rfl
  · rfl

/-- What a total does that takes in a term. -/
def traceTakeIn (kind : Series) (term : Evaluation Decimal) (t : Trace) (index total : Decimal) :
    Trace :=
  (traceTermAt t index).andThen (termAt term index) fun x => Trace.one (.accumulate kind total x)

theorem traceRun_eq_andThen (h : index.atMost upper = true) :
    traceRun kind term t upper index total =
      (traceTakeIn kind term t index total).andThen (takeIn kind term index total)
        (traceRun kind term t upper index.next) := by
  funext s
  rw [Trace.andThen, traceTakeIn, Trace.andThen, termAt]
  cases hx : term (withIndex s index) with
  | mk answer s' =>
    cases answer with
    | error e =>
      rw [traceRun_of_error h hx, takeIn_of_error hx]
      simp only [traceTermAt, List.append_nil]
    | ok x =>
      cases htotal : kind.combine total x with
      | error e =>
        rw [traceRun_of_stop h hx htotal, takeIn_of_ok hx, htotal]
        exact (List.append_nil _).symm
      | ok total' =>
        rw [traceRun_of_ok h hx htotal, takeIn_of_ok hx, htotal]
        exact List.append_cons _ _ _

theorem lockstep_termAt (hterm : Lockstep SameValue t term t' term')
    (hindex : index.SameValue index') :
    Lockstep SameValue (traceTermAt t index) (termAt term index)
      (traceTermAt t' index') (termAt term' index') := by
  intro s s' hs ht ht'
  exact hterm _ _ (hs.set indexName (Expr.equal_number.mpr hindex))
    (fun event hevent => ht ⟨event.action, true⟩ (List.mem_map.mpr ⟨event, hevent, rfl⟩))
    (fun event hevent => ht' ⟨event.action, true⟩ (List.mem_map.mpr ⟨event, hevent, rfl⟩))

theorem lockstep_takeIn (hterm : Lockstep SameValue t term t' term')
    (hindex : index.SameValue index') (htotal : total.SameValue total') :
    Lockstep SameValue (traceTakeIn kind term t index total) (takeIn kind term index total)
      (traceTakeIn kind term' t' index' total') (takeIn kind term' index' total') := by
  rw [takeIn_eq_bind, takeIn_eq_bind]
  exact (lockstep_termAt hterm hindex).bind fun x x' hx =>
    Lockstep.lift (kind.agrees_combine htotal hx)

/-- **The loop of a series goes the same way** if its term does. -/
theorem lockstep_run {index index' total total' : Decimal}
    (hterm : Lockstep SameValue t term t' term') (hupper : upper.SameValue upper')
    (hindex : index.SameValue index') (htotal : total.SameValue total') :
    Lockstep SameValue (kind.traceRun term t upper index total)
      (kind.run term upper index total) (kind.traceRun term' t' upper' index' total')
      (kind.run term' upper' index' total') := by
  -- the indices keep one value, so both loops end after the same round
  have hatMost := atMost_congr hindex hupper
  by_cases h : index.atMost upper = true
  · have h' := hatMost.symm.trans h
    have hnext : index.next.SameValue index'.next := by
      rw [SameValue, Decimal.toRat_next, Decimal.toRat_next, hindex]
    have hdecreasing := remaining_next_lt h
    rw [run_eq_bind h, run_eq_bind h', traceRun_eq_andThen h, traceRun_eq_andThen h']
    exact (lockstep_takeIn hterm hindex htotal).bind fun _ _ htotal' =>
      lockstep_run hterm hupper hnext htotal'
  · have h' := hatMost ▸ h
    refine Lockstep.still (fun s => ?_) (fun s => ?_) fun s s' _ _ => ?_
    · rw [run_of_not h]
    · rw [run_of_not h']
    · rw [run_of_not h, run_of_not h']
      exact Agrees.ok htotal
termination_by remaining index upper

theorem lockstep_evaluate {lower lower' : Decimal}
    (hterm : Lockstep SameValue t term t' term') (hlower : lower.SameValue lower')
    (hupper : upper.SameValue upper') :
    Lockstep SameValue (kind.trace lower upper term t) (kind.evaluate lower upper term)
      (kind.trace lower' upper' term' t') (kind.evaluate lower' upper' term') := by
  rw [evaluate, evaluate, trace, trace, atMost_congr hlower hupper]
  split
  · exact (lockstep_run hterm hupper hlower rfl).keeping indexName
  · exact Lockstep.fail rfl

end Series

/-! ## Expressions in step -/

namespace Expr

variable {follow : String → Expr → Evaluation Decimal} {followed : String → Expr → Trace}

theorem agrees_target? {e e' : Expr} (h : e.equal e' = true) : Agrees Eq e.target? e'.target? := by
  cases e with
  | var name =>
    obtain rfl := equal_var.mp h
    rw [target?]
    split
    · exact Agrees.error rfl
    · exact Agrees.ok rfl
  | number d =>
    obtain ⟨d', rfl, -⟩ := equal_number_left.mp h
    exact Agrees.error rfl
  | unary op a =>
    obtain ⟨a', rfl, -⟩ := equal_unary.mp h
    exact Agrees.error rfl
  | binary op a b =>
    obtain ⟨a', b', rfl, -⟩ := equal_binary.mp h
    exact Agrees.error rfl
  | call f args =>
    obtain ⟨args', rfl, -⟩ := equal_call.mp h
    exact Agrees.error rfl

/-- A function of one argument, applied to numbers of one value. -/
theorem lockstep_unary {f : Builtin} {apply : Context → Decimal → Except EvalError Decimal}
    (hrule : f.rule = .unary apply) {x x' : Decimal} (hx : x.SameValue x') (t' : Trace) :
    Lockstep SameValue (Trace.one (.apply f [x])) (Evaluation.inContext fun c => apply c x)
      t' (Evaluation.inContext fun c => apply c x') :=
  Lockstep.inContext fun _ c ht =>
    f.agrees_unary hrule (Trace.not_floats_of_exact ht) c hx

/-- A function of two arguments, applied to numbers of one value. -/
theorem lockstep_binary {f : Builtin}
    {apply : Context → Decimal → Decimal → Except EvalError Decimal}
    (hrule : f.rule = .binary apply) {x x' y y' : Decimal} (hx : x.SameValue x')
    (hy : y.SameValue y') (t' : Trace) :
    Lockstep SameValue
      (Trace.one (.apply f [x, y])) (Evaluation.inContext fun c => apply c x y)
      t' (Evaluation.inContext fun c => apply c x' y') :=
  Lockstep.inContext fun _ c ht =>
    f.agrees_binary hrule (Trace.not_floats_of_exact ht) c hx hy

section Following

-- equal bindings are followed in step
variable (hfollow : ∀ name e e', e.equal e' = true →
  Lockstep SameValue (followed name e) (follow name e) (followed name e') (follow name e'))

include hfollow

theorem lockstep_var (name : String) :
    Lockstep SameValue (traceWith follow followed (.var name)) (evalWith follow (.var name))
      (traceWith follow followed (.var name)) (evalWith follow (.var name)) := by
  intro s s' hs
  have hbinding := hs.bindings name
  generalize hget : s.env.get? name = binding at hbinding
  generalize hget' : s'.env.get? name = binding' at hbinding
  cases hbinding with
  | none =>
    rw [evalWith_var_unbound hget, evalWith_var_unbound hget']
    exact fun _ _ _ _ => ⟨rfl, hs⟩
  | @some e e' he =>
    by_cases hliteral : ∃ d, e = .number d
    · obtain ⟨d, rfl⟩ := hliteral
      obtain ⟨d', rfl, hd⟩ := equal_number_left.mp he
      rw [evalWith_var_literal hget, evalWith_var_literal hget']
      exact fun _ _ _ _ => ⟨hd, hs⟩
    · have hne : ∀ d, e ≠ .number d := not_exists.mp hliteral
      have hne' := ne_number_of_equal he hne
      rw [evalWith_var_bound hget hne, evalWith_var_bound hget' hne', Trace.Exact, Trace.Exact,
        traceWith_var_bound hget hne, traceWith_var_bound hget' hne']
      exact hfollow name e e' he s s' hs

/-- **Equal expressions go the same way**, if following equal bindings does. -/
theorem lockstep_evalWith {e e' : Expr} (h : e.equal e' = true) :
    Lockstep SameValue (traceWith follow followed e) (evalWith follow e)
      (traceWith follow followed e') (evalWith follow e') := by
  induction e using Expr.induction generalizing e' with
  | number d =>
    obtain ⟨d', rfl, hd⟩ := equal_number_left.mp h
    rw [evalWith, evalWith]
    exact Lockstep.lift (Agrees.ok hd)
  | var name =>
    obtain rfl := equal_var.mp h
    exact lockstep_var hfollow name
  | unary op a iha =>
    obtain ⟨a', rfl, ha⟩ := equal_unary.mp h
    rw [evalWith, evalWith, traceWith, traceWith]
    exact (iha ha).bind_silent fun x x' hx => Lockstep.lift (op.agrees_applySign hx)
  | binary op a b iha ihb =>
    obtain ⟨a', b', rfl, ha, hb⟩ := equal_binary.mp h
    rw [evalWith, evalWith, traceWith, traceWith]
    exact (iha ha).bind fun x x' hx => (ihb hb).bind_silent fun y y' hy =>
      Lockstep.inContext fun _ c _ => op.agrees_apply c hx hy
  | call f args ih =>
    obtain ⟨args', rfl, hargs⟩ := equal_call.mp h
    by_cases hlength : args.length = f.arity
    · obtain ⟨apply, a, hrule, rfl⟩ | ⟨apply, a, b, hrule, rfl⟩ | ⟨target, a, rfl, rfl⟩
        | ⟨kind, lower, upper, term, hrule, rfl⟩ | ⟨rfl, rfl⟩ := call_shape hlength
      · obtain _ | ⟨ha, _ | _⟩ := hargs
        rw [evalWith_call_unary hrule, evalWith_call_unary hrule, traceWith_call_unary hrule,
          traceWith_call_unary hrule]
        exact (ih a (by simp) ha).bind fun x x' hx => lockstep_unary hrule hx _
      · obtain _ | ⟨ha, _ | ⟨hb, _ | _⟩⟩ := hargs
        rw [evalWith_call_binary hrule, evalWith_call_binary hrule, traceWith_call_binary hrule,
          traceWith_call_binary hrule]
        exact (ih a (by simp) ha).bind fun x x' hx => (ih b (by simp) hb).bind fun y y' hy =>
          lockstep_binary hrule hx hy _
      · obtain _ | ⟨htarget, _ | ⟨ha, _ | _⟩⟩ := hargs
        rw [evalWith_define, evalWith_define, traceWith_define, traceWith_define]
        refine (Lockstep.lift (agrees_target? htarget)).bind fun name _ hname => ?_
        subst hname
        exact (ih a (by simp) ha).bind fun x x' hx => Lockstep.assign name hx
      · obtain _ | ⟨hlower, _ | ⟨hupper, _ | ⟨hterm, _ | _⟩⟩⟩ := hargs
        rw [evalWith_series hrule, evalWith_series hrule, traceWith_series hrule,
          traceWith_series hrule]
        exact (ih lower (by simp) hlower).bind fun x x' hx =>
          (ih upper (by simp) hupper).bind fun y y' hy =>
            Series.lockstep_evaluate (ih term (by simp) hterm) hx hy
      · -- a random number is drawn, so the trace is not exact
        intro s s' _ ht
        rw [traceWith_random] at ht
        exact absurd trivial (Trace.not_floats_of_exact ht)
    · have hlength' : args'.length ≠ f.arity := hargs.length_eq ▸ hlength
      rw [evalWith_call_of_length_ne hlength, evalWith_call_of_length_ne hlength']
      exact Lockstep.fail rfl

end Following

theorem lockstep_evalWithin : ∀ (n : Nat) {e e' : Expr}, e.equal e' = true →
    Lockstep SameValue (traceWithin n e) (evalWithin n e) (traceWithin n e') (evalWithin n e')
  | 0, _, _, h => by
    rw [evalWithin, traceWithin]
    refine lockstep_evalWith ?_ h
    exact fun name _ _ _ => Lockstep.fail rfl
  | n + 1, _, _, h => lockstep_evalWith (fun _ _ _ he => lockstep_evalWithin n he) h

/-- **Evaluation does not see how a number is written.**  Unless one of the evaluations floats, fails
because of a scale, or stops the program, equal expressions have answers of one value in
environments that are alike, or fail for the same cause, and leave environments that are alike. -/
theorem eval_congr {e e' : Expr} (h : e.equal e' = true) {s s' : Session}
    (hs : s.env.Alike s'.env) (hexact : e.trace.Exact s) (hexact' : e'.trace.Exact s')
    (hscale : (e.eval s).1 ≠ .error .exponentOverflow)
    (hscale' : (e'.eval s').1 ≠ .error .exponentOverflow)
    (hstop : (e.eval s).1 ≠ .error .stopped) (hstop' : (e'.eval s').1 ≠ .error .stopped) :
    AnswersAlike SameValue (e.eval s).1 (e'.eval s').1 ∧
      (e.eval s).2.env.Alike (e'.eval s').2.env := by
  have hlimit : nestingLimit s.env = nestingLimit s'.env := by
    rw [nestingLimit, nestingLimit, hs.length_eq]
  rw [Trace.Exact, trace] at hexact hexact'
  rw [eval] at hscale hscale' hstop hstop' ⊢
  rw [eval]
  rw [← hlimit] at hexact' hscale' hstop' ⊢
  exact lockstep_evalWithin _ h s s' hs hexact hexact' ⟨hscale, hstop⟩ ⟨hscale', hstop'⟩

/-- `x = floor(y) + 2`, the number written in some way. -/
def floorAndTwo (two : Decimal) : Expr :=
  .call .define [.var "x", .binary .plus (.call .floor [.var "y"]) (.number two)]

/-- A session that starts with one variable bound to a number. -/
def sessionBinding (name : String) (d : Decimal) : Session :=
  ⟨(Environment.initial default).set name (.number d), mkStdGen 0⟩

theorem alike_sessionBinding (name : String) {d d' : Decimal} (h : d.SameValue d') :
    (sessionBinding name d).env.Alike (sessionBinding name d').env :=
  (Environment.Alike.refl _).set name (equal_number.mpr h)

theorem eval_congr_floorAndTwo :
    AnswersAlike SameValue
        ((floorAndTwo ⟨200, 2⟩).eval (sessionBinding "y" ⟨15, 1⟩)).1
        ((floorAndTwo ⟨2, 0⟩).eval (sessionBinding "y" ⟨1500, 3⟩)).1 ∧
      ((floorAndTwo ⟨200, 2⟩).eval (sessionBinding "y" ⟨15, 1⟩)).2.env.Alike
        ((floorAndTwo ⟨2, 0⟩).eval (sessionBinding "y" ⟨1500, 3⟩)).2.env := by
  have hexact : ∀ two d, (floorAndTwo two).trace.Exact (sessionBinding "y" d) := by
    intro two d event hevent
    have htrace : (floorAndTwo two).trace (sessionBinding "y" d) =
        [⟨.apply .floor [d], false⟩, ⟨.assign "x", false⟩] := rfl
    rw [htrace] at hevent
    rcases List.mem_pair.mp hevent with rfl | rfl
    · simp [Action.Floats, Builtin.Floats, Builtin.isFloating]
    · exact id
  refine eval_congr (by decide) (alike_sessionBinding "y" (Decimal.equal_iff.mp (by decide)))
    (hexact _ _) (hexact _ _) ?_ ?_ ?_ ?_
  · exact fun h => nomatch h
  · exact fun h => nomatch h
  · exact fun h => nomatch h
  · exact fun h => nomatch h

/-- `product(1, 2, x)`. -/
def squareByProduct : Expr :=
  .call .product [.number .one, .number ⟨2, 0⟩, .var "x"]

/-- The variable is the second term of `squareByProduct` as it is the first. -/
theorem eval_squareByProduct {d : Decimal} (h : Decimal.ScaleFits d.scale) :
    (squareByProduct.eval (sessionBinding "x" d)).1 = (d.mulPlain d).stored := by
  obtain ⟨follow, hfollow⟩ := exists_evalWithin_eq (nestingLimit (sessionBinding "x" d).env)
  have hvar : ∀ s : Session, s.env.get? "x" = some (.number d) → ∀ index,
      evalWith follow (.var "x") (Series.withIndex s index) = (.ok d, Series.withIndex s index) :=
    fun s hs _ => evalWith_var_literal ((s.env.get?_set_of_ne (by decide) _).trans hs)
  have hone : Series.product.combine .one d = .ok d := Decimal.stored_eq_ok h
  rw [eval, hfollow, squareByProduct, evalWith_series rfl, bind_apply, evalWith_number]
  show (Series.evaluate .product .one ⟨2, 0⟩ (evalWith follow (.var "x")) _).1 = _
  rw [Series.evaluate, if_pos (by decide)]
  show (Series.run .product (evalWith follow (.var "x")) ⟨2, 0⟩ .one .one _).1 = _
  rw [Series.run_of_ok (by decide) (hvar _ rfl _) hone]
  cases htotal : Series.product.combine d d with
  | error e =>
    rw [Series.run_of_stop (by decide) (hvar _ rfl _) htotal]
    exact htotal.symm
  | ok total =>
    rw [Series.run_of_ok (by decide) (hvar _ rfl _) htotal, Series.run_of_not (by decide)]
    exact htotal.symm

/-- **A product that stops shows how its factors are written**: if `eval_congr` did not ask that the
evaluations do not stop, it would not hold. -/
theorem eval_product_stops :
    ¬ ∀ (e e' : Expr) (s s' : Session), e.equal e' = true → s.env.Alike s'.env →
      e.trace.Exact s → e'.trace.Exact s' →
      (e.eval s).1 ≠ .error .exponentOverflow → (e'.eval s').1 ≠ .error .exponentOverflow →
        AnswersAlike SameValue (e.eval s).1 (e'.eval s').1 ∧
          (e.eval s).2.env.Alike (e'.eval s').2.env := by
  intro hcongr
  have hexact : ∀ d, squareByProduct.trace.Exact (sessionBinding "x" d) := by
    intro d event hevent
    have hbinds : (sessionBinding "x" d).env.BindsOnly Builtin.IsExact :=
      (Environment.bindsOnly_initial default).set "x" trivial
    have hcalls : squareByProduct.CallsOnly Builtin.IsExact := by
      simp [squareByProduct, CallsOnly, AllCallsOnly, Builtin.IsExact, Builtin.isFloating]
    exact Action.not_floats (only_traceWithin _ hcalls _ hbinds event hevent)
  have hne : ∀ d, Decimal.ScaleFits d.scale →
      (squareByProduct.eval (sessionBinding "x" d)).1 ≠ .error .exponentOverflow := fun d hd => by
    rw [eval_squareByProduct hd]
    exact Decimal.stored_ne_exponentOverflow _
  have hsame : SameValue ⟨1, 4611686018427387903⟩ ⟨10, 4611686018427387904⟩ :=
    Decimal.equal_iff.mp (by decide)
  have hvalue := (hcongr squareByProduct squareByProduct _ _ (equal_refl _)
    (alike_sessionBinding "x" hsame) (hexact _) (hexact _) (hne _ (by decide))
    (hne _ (by decide))).1
  -- the first product has a scale of `2 ^ 63 - 2`, the second would have one of `2 ^ 63`
  rw [eval_squareByProduct (by decide), eval_squareByProduct (by decide),
    Decimal.stored_eq_ok (by decide), Decimal.stored_eq_stopped (by decide)] at hvalue
  exact hvalue

end Expr

end Abacus
