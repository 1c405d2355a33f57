import Abacus.Proofs.Evaluation.Failure
import Abacus.Proofs.Evaluation.FreeVariables

/-!
# Proofs/Evaluation/Scope — only a free variable that is not bound is unknown

In the course of an evaluation bindings come and go: assignments make them, and a series unbinds its
index at its end if that was not bound before.  So more names may be bound in the middle of an
evaluation than at its end.  But never fewer than at its start: what was bound is bound at each
variable that is read, and at the end (`invariant_covers`).

Inside the term of a series the index is bound as well, whatever the term assigned to it the time
before.  A variable that is found unbound is therefore free and was unbound at the start.
-/

namespace Abacus

open Evaluation

/-! ## Environments that bind certain names -/

/-- **Every name with `D` is bound**, and all bindings are literals. -/
structure Environment.Covers (D : String → Prop) (env : Environment) : Prop where
  literals : env.LiteralsOnly
  bound : ∀ name, D name → env.get? name ≠ none

variable {D : String → Prop}

theorem Environment.Covers.set {env : Environment} (h : env.Covers D) (name : String)
    (d : Decimal) : (env.set name (.number d)).Covers fun other => other = name ∨ D other where
  literals := h.literals.set ⟨d, rfl⟩
  bound other hother := by
    by_cases hname : other = name
    · subst hname
      rw [get?_set_self]
      exact Option.some_ne_none _
    · rw [get?_set_of_ne env hname]
      exact h.bound other (hother.resolve_left hname)

theorem Environment.Covers.mono {D' : String → Prop} {env : Environment} (h : env.Covers D')
    (hD : ∀ name, D name → D' name) : env.Covers D :=
  ⟨h.literals, fun name hname => h.bound name (hD name hname)⟩

/-- **What is bound before an evaluation is bound after it.** -/
theorem invariant_covers (D : String → Prop) : Invariant fun s : Session => s.env.Covers D where
  random _ _ h := h
  assign _ name d _ h := (h.set name d).mono fun _ => .inr
  restore s₀ s h₀ h :=
    { literals := invariant_literalsOnly.restore s₀ s h₀.literals h.literals
      bound := by
        intro other hother
        by_cases hname : other = Series.indexName
        · subst hname
          rw [Environment.get?_restore_self]
          exact h₀.bound _ hother
        · rw [Environment.get?_restore_of_ne _ hname]
          exact h.bound other hother }

/-! ## Variables that are not found -/

/-- If the failure is that a variable is not bound, the name of that variable satisfies `Q`. -/
def EvalError.Misses (Q : String → Prop) : EvalError → Prop
  | .unknownVariable name => Q name
  | _ => True

/-- Where numbers are at fault, no variable is. -/
theorem EvalError.OfNumbers.misses {Q : String → Prop} {error : EvalError} (h : error.OfNumbers) :
    error.Misses Q := by
  cases error with
  | unknownVariable name => exact h.elim
  | _ => trivial

namespace Expr

open EvalError

variable {follow : String → Expr → Evaluation Decimal} {Q : String → Prop}

theorem misses_var {name : String} (h : D name ∨ Q name) :
    FailsOnly (fun s => s.env.Covers D) (Misses Q) (evalWith follow (.var name)) := by
  intro s hs
  cases hget : s.env.get? name with
  | none =>
    rw [evalWith_var_unbound hget]
    exact h.resolve_left fun hname => hs.bound name hname hget
  | some e =>
    obtain ⟨d, rfl⟩ := hs.literals name e hget
    rw [evalWith_var_literal hget]
    trivial

/-- **A variable that is not found is a free one that was not bound at the start.**  In the term of
a series, the names that are bound at the start are joined by the index. -/
theorem misses_evalWith (hkeeps : ∀ D name e, Keeps (fun s => s.env.Covers D) (follow name e))
    {e : Expr} : (∀ name ∈ e.free, D name ∨ Q name) →
      FailsOnly (fun s => s.env.Covers D) (Misses Q) (evalWith follow e) := by
  have hkept : ∀ D e, Keeps (fun s => s.env.Covers D) (evalWith follow e) :=
    fun D => keeps_evalWith (invariant_covers D) (hkeeps D)
  induction e using Expr.induction generalizing D with
  | number d => exact fun _ _ _ => trivial
  | var name => exact fun h => misses_var (h name (List.mem_singleton.mpr rfl))
  | unary op a iha =>
    intro h
    refine (iha h).bind (hkept D a) fun x => .lift ?_
    cases op <;> trivial
  | binary op a b iha ihb =>
    intro h
    obtain ⟨ha, hb⟩ := List.forall_mem_append.mp h
    exact (iha ha).bind (hkept D a) fun x => (ihb hb).bind (hkept D b) fun y =>
      .inContext fun c => (op.failsWith_apply c x y).mono fun _ => OfNumbers.misses
  | call f args ih =>
    intro h
    by_cases hlength : args.length = f.arity
    · obtain ⟨apply, a, hrule, rfl⟩ | ⟨apply, a, b, hrule, rfl⟩ | ⟨target, a, rfl, rfl⟩ |
        ⟨kind, lower, upper, term, hrule, rfl⟩ | ⟨rfl, rfl⟩ := call_shape hlength
      · rw [free_call_unary hrule] at h
        rw [evalWith_call_unary hrule]
        exact (ih a (by simp) h).bind (hkept D a) fun x => .inContext fun c =>
          (f.failsWith_unary hrule c x).mono fun _ h => h.ofNumbers.misses
      · rw [free_call_binary hrule] at h
        obtain ⟨ha, hb⟩ := List.forall_mem_append.mp h
        rw [evalWith_call_binary hrule]
        exact (ih a (by simp) ha).bind (hkept D a) fun x => (ih b (by simp) hb).bind (hkept D b)
          fun y => .inContext fun c =>
            (f.failsWith_binary hrule c x y).mono fun _ => OfNumbers.misses
      · have ha : ∀ name ∈ a.free, D name ∨ Q name := fun name hname =>
          h name (mem_free_define hname)
        rw [evalWith_define]
        exact FailsOnly.bind (.lift (failsWith_target? trivial fun _ => trivial)) (Keeps.lift _)
          fun name => (ih a (by simp) ha).bind (hkept D a) fun x _ _ => trivial
      · rw [free_series hrule] at h
        obtain ⟨hbounds, hterm⟩ := List.forall_mem_append.mp h
        obtain ⟨hlower, hupper⟩ := List.forall_mem_append.mp hbounds
        have hterm' : ∀ name ∈ term.free, (name = Series.indexName ∨ D name) ∨ Q name := by
          intro name hname
          by_cases hindex : name = Series.indexName
          · exact .inl (.inl hindex)
          · exact (hterm name (List.mem_filter.mpr ⟨hname, decide_eq_true hindex⟩)).imp_left .inr
        have hround : ∀ s index, s.env.Covers D →
            FailsWith (Misses Q) (evalWith follow term (Series.withIndex s index)).1 :=
          fun s index hs => ih term (by simp) hterm' _ (hs.set Series.indexName index)
        rw [evalWith_series hrule]
        exact (ih lower (by simp) hlower).bind (hkept D lower) fun x =>
          (ih upper (by simp) hupper).bind (hkept D upper) fun y =>
            kind.failsOnly_evaluate (invariant_covers D) (fun _ => OfNumbers.misses) hround
              (hkept D term) x y
      · exact fun s _ => failsWith_draw (fun _ => OfNumbers.misses) s
    · rw [evalWith_call_of_length_ne hlength]
      exact fun _ _ => trivial

theorem misses_evalWithin (n : Nat) {e : Expr} (h : ∀ name ∈ e.free, D name ∨ Q name) :
    FailsOnly (fun s => s.env.Covers D) (Misses Q) (evalWithin n e) := by
  rw [evalWithin_eq]
  refine misses_evalWith (fun D name e => ?_) h
  match n with
  | 0 => exact Keeps.fail _
  | n + 1 => exact keeps_evalWithin (invariant_covers D) n e

/-- **Only a free variable that is not bound is unknown.**  Where variables are bound to literals, a
variable that an evaluation does not find is a free variable of the expression and was not bound
when the evaluation began.  So if all free variables are bound, every variable is found, whatever is
assigned to, summed or multiplied on the way, and whatever else fails. -/
theorem eval_unknownVariable {s : Session} (hs : s.env.LiteralsOnly) (e : Expr) :
    (∀ name, (e.eval s).1 = .error (.unknownVariable name) →
      s.env.get? name = none ∧ name ∈ e.free) ∧
    ((∀ name ∈ e.free, s.env.get? name ≠ none) →
      ∀ name, (e.eval s).1 ≠ .error (.unknownVariable name)) := by
  have hcovers : s.env.Covers fun name => s.env.get? name ≠ none := ⟨hs, fun _ h => h⟩
  have hmisses : ∀ name, (e.eval s).1 = .error (.unknownVariable name) →
      s.env.get? name = none ∧ name ∈ e.free := by
    intro name hname
    have hfails : FailsWith (Misses fun name => s.env.get? name = none ∧ name ∈ e.free)
        (e.eval s).1 := by
      refine misses_evalWithin (nestingLimit s.env) (fun name hfree => ?_) s hcovers
      by_cases hnone : s.env.get? name = none
      · exact .inr ⟨hnone, hfree⟩
      · exact .inl hnone
    rw [hname] at hfails
    exact hfails
  refine ⟨hmisses, fun hbound name hname => ?_⟩
  obtain ⟨hnone, hfree⟩ := hmisses name hname
  exact hbound name hfree hnone

/-- `define(i, y) + z`, which assigns to the index before it misses `z`. -/
def sumWithUnbound : Expr :=
  .binary .plus (.call .define [.var "i", .var "y"]) (.var "z")

/-- Where `y` is bound, `define(i, y) + z` misses `z`, and a sum that reads `y`, assigns in its term
and leaves the index unbound at its end misses nothing. -/
theorem eval_unknownVariable_sumWithUnbound :
    (sumWithUnbound.eval sessionWithBound).1 = .error (.unknownVariable "z") ∧
    sessionWithBound.env.get? "z" = none ∧ "z" ∈ sumWithUnbound.free ∧
    ∀ name, (sumOfSquares.eval sessionWithBound).1 ≠ .error (.unknownVariable name) := by
  have hs : sessionWithBound.env.LiteralsOnly :=
    (Environment.literalsOnly_initial default).set ⟨⟨3, 0⟩, rfl⟩
  have hmissed : (sumWithUnbound.eval sessionWithBound).1 = .error (.unknownVariable "z") := rfl
  obtain ⟨hnone, hfree⟩ := (eval_unknownVariable hs sumWithUnbound).1 "z" hmissed
  refine ⟨hmissed, hnone, hfree, (eval_unknownVariable hs sumOfSquares).2 ?_⟩
  intro name hname
  obtain rfl : name = "y" := by simpa [show sumOfSquares.free = ["y", "y"] from rfl] using hname
  exact Option.some_ne_none _

end Expr

end Abacus
