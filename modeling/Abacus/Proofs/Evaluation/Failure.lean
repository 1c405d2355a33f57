import Abacus.Proofs.Evaluation.Trace

/-!
# Proofs/Evaluation/Failure — what an evaluation can fail for

Most causes of failure lie in values and names: a divisor is zero, a variable is not bound.  Such a
cause is `OfValues`, and `OfNumbers` if it lies in numbers alone, as it does for all that operators
and functions fail for.  Three causes do not lie in values.  An operator that is no sign stands in
front of an operand, or a call has the wrong number of arguments: this is in the shape of the
expression, and `Expr.faults` lists it.  Or bindings refer to each other without end.

One cause that lies in numbers is looked out for nowhere: a scale that leaves 64 bits.  Everything
but a product fails only for what is `Checked`.

`failsOnly_evalWith` says that there is no other source of failure: if a property of causes holds of
all that is `OfValues`, of the faults of an expression, and of what following its variables can fail
for, then the expression fails for nothing else.
-/

namespace Abacus

open Evaluation

/-! ## Causes of failure -/

/-- Whether a failure is a matter of values and names, and not of how expressions are built. -/
def EvalError.OfValues : EvalError → Prop
  | .unsupportedOperator _ => False
  | .arityMismatch _ _ => False
  | .circularBinding _ => False
  | _ => True

/-- Whether a failure is a matter of the numbers that an operator or a function is given. -/
def EvalError.OfNumbers : EvalError → Prop
  | .unknownVariable _ => False
  | .invalidTarget _ => False
  | .constantRedefinition _ => False
  | error => error.OfValues

theorem EvalError.OfNumbers.ofValues {error : EvalError} (h : error.OfNumbers) :
    error.OfValues := by
  cases error with
  | unknownVariable name => exact h.elim
  | invalidTarget target => exact h.elim
  | constantRedefinition name => exact h.elim
  | _ => exact h

/-- Whether a failure is a matter of numbers that the program looks out for. -/
def EvalError.Checked : EvalError → Prop
  | .stopped => False
  | error => error.OfNumbers

theorem EvalError.Checked.ofNumbers {error : EvalError} (h : error.Checked) :
    error.OfNumbers := by
  cases error with
  | stopped => exact h.elim
  | _ => exact h

/-- Whether a failure is a matter of how an expression is built. -/
def EvalError.OfShape : EvalError → Prop
  | .unsupportedOperator _ => True
  | .arityMismatch _ _ => True
  | _ => False

/-- An answer that, if it is a failure, is one for a cause with `P`. -/
def FailsWith {α : Type} (P : EvalError → Prop) : Except EvalError α → Prop
  | .ok _ => True
  | .error e => P e

namespace FailsWith

variable {α β : Type} {P Q : EvalError → Prop}

theorem mono {x : Except EvalError α} (hx : FailsWith P x) (hPQ : ∀ error, P error → Q error) :
    FailsWith Q x := by
  cases x with
  | ok a => trivial
  | error e => exact hPQ e hx

theorem ne_error {x : Except EvalError α} (hx : FailsWith P x) {error : EvalError}
    (herror : ¬ P error) : x ≠ .error error := by
  rintro rfl
  exact herror hx

theorem bind {x : Except EvalError α} {g : α → Except EvalError β} (hx : FailsWith P x)
    (hg : ∀ a, FailsWith P (g a)) : FailsWith P (x >>= g) := by
  cases x with
  | ok a => exact hg a
  | error e => exact hx

theorem ite {p : Prop} [Decidable p] {x y : Except EvalError α} (hx : FailsWith P x)
    (hy : FailsWith P y) : FailsWith P (if p then x else y) := by
  split
  · exact hx
  · exact hy

end FailsWith

/-! ## Operators and functions -/

section Functions

open EvalError Decimal

theorem Context.failsWith_divide (c : Context) (a b : Decimal) :
    FailsWith Checked (c.divide a b) :=
  .ite trivial (.ite trivial (.ite (.ite trivial (.ite trivial trivial)) trivial))

theorem Operator.failsWith_apply_of_ne {op : Operator} (h : op ≠ .times) (c : Context)
    (a b : Decimal) : FailsWith Checked (op.apply c a b) := by
  cases op with
  | plus => trivial
  | minus => trivial
  | times => exact absurd rfl h
  | divide => exact c.failsWith_divide a b
  | modulo => exact .ite trivial trivial

theorem Operator.failsWith_apply (op : Operator) (c : Context) (a b : Decimal) :
    FailsWith OfNumbers (op.apply c a b) := by
  by_cases h : op = .times
  · subst h
    exact .ite (.ite trivial trivial) trivial
  · exact (failsWith_apply_of_ne h c a b).mono fun _ => Checked.ofNumbers

theorem failsWith_toReal (d : Decimal) : FailsWith Checked d.toReal := by
  rw [toReal]
  split
  · trivial
  · trivial

theorem failsWith_ofReal (x : Float) : FailsWith Checked (ofReal x) := by
  rw [ofReal]
  split
  · trivial
  · trivial

theorem failsWith_viaReal (g : Float → Float) (d : Decimal) :
    FailsWith Checked (d.viaReal g) :=
  (failsWith_toReal d).bind fun _ => failsWith_ofReal _

theorem failsWith_viaReals (g : Float → Float → Float) (a b : Decimal) :
    FailsWith Checked (a.viaReals g b) :=
  (failsWith_toReal a).bind fun _ => (failsWith_toReal b).bind fun _ => failsWith_ofReal _

theorem failsWith_factorial (d : Decimal) : FailsWith Checked d.factorial := by
  rw [factorial]
  split
  · trivial
  · exact .ite trivial trivial

theorem failsWith_isPrime (d : Decimal) : FailsWith Checked d.isPrime := by
  rw [isPrime]
  split
  · split
    · trivial
    · trivial
  · trivial

theorem failsWith_power (c : Context) (a b : Decimal) : FailsWith Checked (power c a b) := by
  rw [power]
  split
  · exact failsWith_viaReals _ a b
  · refine .ite (.ite trivial trivial) ?_
    exact FailsWith.bind (.ite trivial trivial) fun d => c.failsWith_divide one d

variable {f : Builtin}

/-- **A function of one argument fails only for what is looked out for.** -/
theorem Builtin.failsWith_unary {apply : Context → Decimal → Except EvalError Decimal}
    (hrule : f.rule = .unary apply) (c : Context) (x : Decimal) :
    FailsWith Checked (apply c x) := by
  cases f with
  | factorial =>
    cases hrule
    exact failsWith_factorial x
  | isPrime =>
    cases hrule
    exact (failsWith_isPrime x).bind fun _ => trivial
  | abs | floor | ceiling | round | not | bitNot =>
    cases hrule
    trivial
  | sin | cos | tan | asin | acos | atan | sinh | cosh | tanh | exp | logE | log2 | log10 | sqrt
  | cbrt =>
    cases hrule
    exact failsWith_viaReal _ x
  | _ => cases hrule

/-- **A function of two arguments fails only for what is looked out for**, unless it multiplies. -/
theorem Builtin.failsWith_binary_of_ne (hf : f ≠ .times)
    {apply : Context → Decimal → Decimal → Except EvalError Decimal}
    (hrule : f.rule = .binary apply) (c : Context) (x y : Decimal) :
    FailsWith Checked (apply c x y) := by
  cases f with
  | times => exact absurd rfl hf
  | power =>
    cases hrule
    exact failsWith_power c x y
  | plus | subtract | divide | modulo =>
    cases hrule
    exact Operator.failsWith_apply_of_ne (by decide) c x y
  | equal | unequal | less | lessEqual | greater | greaterEqual | bitAnd | bitOr | bitXor =>
    cases hrule
    trivial
  | bitShiftLeft | bitShiftRight =>
    cases hrule
    exact .ite trivial trivial
  | atan2 | log | hypot =>
    cases hrule
    exact failsWith_viaReals _ x y
  | _ => cases hrule

theorem Builtin.failsWith_binary {apply : Context → Decimal → Decimal → Except EvalError Decimal}
    (hrule : f.rule = .binary apply) (c : Context) (x y : Decimal) :
    FailsWith OfNumbers (apply c x y) := by
  by_cases hf : f = .times
  · subst hf
    cases hrule
    exact Operator.failsWith_apply .times c x y
  · exact (failsWith_binary_of_ne hf hrule c x y).mono fun _ => Checked.ofNumbers

end Functions

/-! ## Computations -/

/-- From a session with the property `I`, the computation fails only for causes with `P`. -/
def Evaluation.FailsOnly {α : Type} (I : Session → Prop) (P : EvalError → Prop)
    (x : Evaluation α) : Prop :=
  ∀ s, I s → FailsWith P (x s).1

namespace Evaluation.FailsOnly

variable {α β : Type} {I : Session → Prop} {P : EvalError → Prop} {x : Evaluation α}

theorem lift {y : Except EvalError α} (hy : FailsWith P y) : FailsOnly I P (Evaluation.lift y) :=
  fun _ _ => hy

theorem inContext {g : Context → Except EvalError α} (hg : ∀ c, FailsWith P (g c)) :
    FailsOnly I P (Evaluation.inContext g) :=
  fun s _ => hg s.env.context

theorem bind {g : α → Evaluation β} (hx : FailsOnly I P x) (hkeeps : Keeps I x)
    (hg : ∀ a, FailsOnly I P (g a)) : FailsOnly I P (x >>= g) := by
  intro s hs
  have hfails := hx s hs
  have hkept := hkeeps s hs
  rw [bind_apply]
  generalize x s = answer at hfails hkept
  obtain ⟨e | a, s'⟩ := answer
  · exact hfails
  · exact hg a s' hkept

end Evaluation.FailsOnly

namespace Series

variable {I : Session → Prop} {P : EvalError → Prop} {term : Evaluation Decimal}

theorem failsWith_combine (kind : Series) (total x : Decimal) :
    FailsWith EvalError.OfNumbers (kind.combine total x) := by
  cases kind with
  | sum => trivial
  | product => exact .ite trivial trivial

/-- **The loop of a series fails for what its term fails for**, or for reasons of numbers. -/
theorem failsOnly_run (hI : Invariant I) (hP : ∀ error, error.OfNumbers → P error)
    (hterm : ∀ s index, I s → FailsWith P (term (withIndex s index)).1) (hkeeps : Keeps I term)
    (kind : Series) (upper index total : Decimal) :
    FailsOnly I P (kind.run term upper index total) := by
  intro s
  refine rounds (P := fun index total s => I s → FailsWith P (kind.run term upper index total s).1)
    kind term upper ?_ ?_ ?_ ?_ index total s
  · intro index total s h _
    rw [run_of_not h]
    trivial
  · intro index total s e s' h he hs
    have hfails := hterm s index hs
    rw [run_of_error h he]
    rwa [he] at hfails
  · intro index total s x e s' h hx he _
    have hfails := failsWith_combine kind total x
    rw [he] at hfails
    rw [run_of_stop h hx he]
    exact hP e hfails
  · intro index total s x total' s' h hx htotal ih hs
    have hkept := hkeeps _ (invariant_index hI hs index)
    rw [run_of_ok h hx htotal]
    rw [← withIndex, hx] at hkept
    exact ih hkept

theorem failsOnly_evaluate (hI : Invariant I) (hP : ∀ error, error.OfNumbers → P error)
    (hterm : ∀ s index, I s → FailsWith P (term (withIndex s index)).1) (hkeeps : Keeps I term)
    (kind : Series) (lower upper : Decimal) :
    FailsOnly I P (kind.evaluate lower upper term) := by
  rw [evaluate]
  split
  · exact failsOnly_run hI hP hterm hkeeps kind upper lower kind.identity
  · exact fun _ _ => hP _ trivial

end Series

/-! ## Expressions -/

namespace Expr

instance (op : Operator) : Decidable (IsSign op) :=
  inferInstanceAs (Decidable (op = .plus ∨ op = .minus))

mutual

/-- **What is wrong with the shape of an expression**, as the failures that it leads to. -/
def faults : Expr → List EvalError
  | .number _ => []
  | .var _ => []
  | .unary op a => if IsSign op then faults a else .unsupportedOperator op :: faults a
  | .binary _ a b => faults a ++ faults b
  | .call f args =>
    if args.length = f.arity then faultsAll args else .arityMismatch f args :: faultsAll args

/-- `faults` for each of a list. -/
def faultsAll : List Expr → List EvalError
  | [] => []
  | e :: es => faults e ++ faultsAll es

end

mutual

/-- The variables that occur in an expression, also the targets of assignments. -/
def vars : Expr → List String
  | .number _ => []
  | .var name => [name]
  | .unary _ a => vars a
  | .binary _ a b => vars a ++ vars b
  | .call _ args => varsAll args

/-- `vars` for each of a list. -/
def varsAll : List Expr → List String
  | [] => []
  | e :: es => vars e ++ varsAll es

end

theorem faultsAll_eq : ∀ es : List Expr, faultsAll es = es.flatMap faults
  | [] => rfl
  | e :: es => by rw [faultsAll, faultsAll_eq es, List.flatMap_cons]

theorem varsAll_eq : ∀ es : List Expr, varsAll es = es.flatMap vars
  | [] => rfl
  | e :: es => by rw [varsAll, varsAll_eq es, List.flatMap_cons]

theorem mem_faults_call {f : Builtin} {args : List Expr} {a : Expr} (ha : a ∈ args)
    {error : EvalError} (h : error ∈ a.faults) : error ∈ (call f args).faults := by
  have hargs : error ∈ faultsAll args := by
    rw [faultsAll_eq]
    exact List.mem_flatMap.mpr ⟨a, ha, h⟩
  rw [faults]
  split
  · exact hargs
  · exact List.mem_cons_of_mem _ hargs

/-- **The faults of an expression are in its shape.** -/
theorem ofShape_of_mem_faults {e : Expr} {error : EvalError} (h : error ∈ e.faults) :
    error.OfShape := by
  induction e using Expr.induction with
  | number d => cases h
  | var name => cases h
  | unary op a iha =>
    rw [faults] at h
    split at h
    · exact iha h
    · obtain rfl | h := List.mem_cons.mp h
      · trivial
      · exact iha h
  | binary op a b iha ihb =>
    rw [faults] at h
    exact (List.mem_append.mp h).elim iha ihb
  | call f args ih =>
    have hargs : error ∈ faultsAll args → error.OfShape := by
      rw [faultsAll_eq, List.mem_flatMap]
      exact fun ⟨a, ha, hfault⟩ => ih a ha hfault
    rw [faults] at h
    split at h
    · exact hargs h
    · obtain rfl | h := List.mem_cons.mp h
      · trivial
      · exact hargs h

theorem mem_vars_call {f : Builtin} {args : List Expr} {a : Expr} (ha : a ∈ args)
    {name : String} (h : name ∈ a.vars) : name ∈ (call f args).vars := by
  rw [vars, varsAll_eq]
  exact List.mem_flatMap.mpr ⟨a, ha, h⟩

variable {follow : String → Expr → Evaluation Decimal} {I : Session → Prop}
  {P : EvalError → Prop}

theorem failsWith_target? {target : Expr} (hinvalid : P (.invalidTarget target))
    (hconstant : ∀ name, P (.constantRedefinition name)) : FailsWith P target.target? := by
  cases target with
  | var name => exact .ite (hconstant name) trivial
  | _ => exact hinvalid

theorem failsWith_draw (hP : ∀ error, error.OfNumbers → P error) (s : Session) :
    FailsWith P (Evaluation.draw s).1 :=
  (failsWith_ofReal _).mono fun error h => hP error h.ofNumbers

/-- **Where failures come from**: from values, from the shape of the expression, or from what its
variables are bound to. -/
theorem failsOnly_evalWith (hI : Invariant I) (hkeeps : ∀ name e, Keeps I (follow name e))
    (hP : ∀ error, error.OfValues → P error) {e : Expr} (hfaults : ∀ error ∈ e.faults, P error)
    (hfollow : ∀ name ∈ e.vars, ∀ s bound, I s → s.env.get? name = some bound →
      (∀ d, bound ≠ .number d) → FailsWith P (follow name bound s).1) :
    FailsOnly I P (evalWith follow e) := by
  have hkept : ∀ e, Keeps I (evalWith follow e) := keeps_evalWith hI hkeeps
  have hnumbers : ∀ error, error.OfNumbers → P error := fun error h => hP error h.ofValues
  induction e using Expr.induction with
  | number d => exact fun _ _ => trivial
  | var name =>
    intro s hs
    cases hget : s.env.get? name with
    | none =>
      rw [evalWith_var_unbound hget]
      exact hP _ trivial
    | some bound =>
      by_cases hbound : ∃ d, bound = .number d
      · obtain ⟨d, rfl⟩ := hbound
        rw [evalWith_var_literal hget]
        trivial
      · rw [evalWith_var_bound hget (not_exists.mp hbound)]
        exact hfollow name (List.mem_singleton.mpr rfl) s bound hs hget (not_exists.mp hbound)
  | unary op a iha =>
    rw [faults] at hfaults
    rw [evalWith]
    by_cases hop : IsSign op
    · rw [if_pos hop] at hfaults
      refine (iha hfaults hfollow).bind (hkept a) fun x => .lift ?_
      obtain rfl | rfl := hop
      · trivial
      · trivial
    · rw [if_neg hop, List.forall_mem_cons] at hfaults
      refine (iha hfaults.2 hfollow).bind (hkept a) fun x => .lift ?_
      cases op with
      | plus => exact absurd (.inl rfl) hop
      | minus => exact absurd (.inr rfl) hop
      | _ => exact hfaults.1
  | binary op a b iha ihb =>
    rw [faults, List.forall_mem_append] at hfaults
    rw [vars, List.forall_mem_append] at hfollow
    rw [evalWith]
    exact (iha hfaults.1 hfollow.1).bind (hkept a) fun x =>
      (ihb hfaults.2 hfollow.2).bind (hkept b) fun y => .inContext fun c =>
        (op.failsWith_apply c x y).mono hnumbers
  | call f args ih =>
    have ih' : ∀ a ∈ args, FailsOnly I P (evalWith follow a) := fun a ha =>
      ih a ha (fun error h => hfaults error (mem_faults_call ha h))
        fun name h => hfollow name (mem_vars_call ha h)
    by_cases hlength : args.length = f.arity
    · obtain ⟨apply, a, hrule, rfl⟩ | ⟨apply, a, b, hrule, rfl⟩ | ⟨target, a, rfl, rfl⟩ |
        ⟨kind, lower, upper, term, hrule, rfl⟩ | ⟨rfl, rfl⟩ := call_shape hlength
      · rw [evalWith_call_unary hrule]
        exact (ih' a (by simp)).bind (hkept a) fun x => .inContext fun c =>
          (f.failsWith_unary hrule c x).mono fun error h => hnumbers error h.ofNumbers
      · rw [evalWith_call_binary hrule]
        exact (ih' a (by simp)).bind (hkept a) fun x => (ih' b (by simp)).bind (hkept b) fun y =>
          .inContext fun c => (f.failsWith_binary hrule c x y).mono hnumbers
      · rw [evalWith_define]
        have htarget := failsWith_target? (hP (.invalidTarget target) trivial)
          fun name => hP (.constantRedefinition name) trivial
        exact FailsOnly.bind (.lift htarget) (Keeps.lift _) fun name =>
          (ih' a (by simp)).bind (hkept a) fun x => fun _ _ => trivial
      · rw [evalWith_series hrule]
        exact (ih' lower (by simp)).bind (hkept lower) fun x =>
          (ih' upper (by simp)).bind (hkept upper) fun y =>
            kind.failsOnly_evaluate hI hnumbers
              (fun s index hs => ih' term (by simp) _ (Series.invariant_index hI hs index))
              (hkept term) x y
      · exact fun s _ => failsWith_draw hnumbers s
    · rw [faults, if_neg hlength, List.forall_mem_cons] at hfaults
      rw [evalWith_call_of_length_ne hlength]
      exact fun _ _ => hfaults.1

end Expr

end Abacus
