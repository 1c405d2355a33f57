import Abacus.Proofs.Evaluation.Trace

/-!
# Proofs/Evaluation/Rules — evaluation as a set of rules

`evalWithin` is told how deep bindings may be nested, and gives up on a cycle beyond that depth.
`Evaluates` is told nothing of the kind: it says by one rule for each case what an expression
evaluates to, and a variable is simply worth what its binding is worth.  A derivation is a finite
tree, so an expression that `Evaluates` to something is one whose evaluation comes to an end, also
where it follows bindings and goes round in series.

The two agree as far as they can.  An evaluation that does not give up follows the rules
(`reaches_evalWithin`), and what the rules derive is the answer from some depth on
(`Evaluates.eventually`), so there is one answer at most (`Evaluates.unique`).
-/

namespace Abacus

open Evaluation

/-! ## The rules -/

/-- What the rules find an answer for. -/
inductive Task where
  /-- The value of an expression. -/
  | value (e : Expr)
  /-- The rest of a series from an index on, given the total so far. -/
  | rest (kind : Series) (term : Expr) (upper index total : Decimal)

/-- **The rules of evaluation**: a task, started in one session, ends with an answer in another. -/
inductive Evaluates : Task → Session → Except EvalError Decimal → Session → Prop where
  | number (d : Decimal) (s : Session) : Evaluates (.value (.number d)) s (.ok d) s
  | unbound {name : String} {s : Session} (hname : s.env.get? name = none) :
      Evaluates (.value (.var name)) s (.error (.unknownVariable name)) s
  | bound {name : String} {e : Expr} {s t : Session} {answer : Except EvalError Decimal}
      (hname : s.env.get? name = some e) (he : Evaluates (.value e) s answer t) :
      Evaluates (.value (.var name)) s answer t
  | unary (op : Operator) {a : Expr} {s t : Session} {answer : Except EvalError Decimal}
      (ha : Evaluates (.value a) s answer t) :
      Evaluates (.value (.unary op a)) s (answer >>= op.applySign) t
  | binary (op : Operator) {a b : Expr} {s t u : Session} {x : Decimal}
      {answer : Except EvalError Decimal} (ha : Evaluates (.value a) s (.ok x) t)
      (hb : Evaluates (.value b) t answer u) :
      Evaluates (.value (.binary op a b)) s (answer >>= op.apply u.env.context x) u
  | binaryFailed (op : Operator) {a b : Expr} {s t : Session} {error : EvalError}
      (ha : Evaluates (.value a) s (.error error) t) :
      Evaluates (.value (.binary op a b)) s (.error error) t
  -- calls of functions that take values
  | apply {f : Builtin} {apply : Context → Decimal → Except EvalError Decimal} {a : Expr}
      {s t : Session} {answer : Except EvalError Decimal} (hrule : f.rule = .unary apply)
      (ha : Evaluates (.value a) s answer t) :
      Evaluates (.value (.call f [a])) s (answer >>= apply t.env.context) t
  | applyTwo {f : Builtin} {apply : Context → Decimal → Decimal → Except EvalError Decimal}
      {a b : Expr} {s t u : Session} {x : Decimal} {answer : Except EvalError Decimal}
      (hrule : f.rule = .binary apply) (ha : Evaluates (.value a) s (.ok x) t)
      (hb : Evaluates (.value b) t answer u) :
      Evaluates (.value (.call f [a, b])) s (answer >>= apply u.env.context x) u
  | applyTwoFailed {f : Builtin} {apply : Context → Decimal → Decimal → Except EvalError Decimal}
      {a b : Expr} {s t : Session} {error : EvalError} (hrule : f.rule = .binary apply)
      (ha : Evaluates (.value a) s (.error error) t) :
      Evaluates (.value (.call f [a, b])) s (.error error) t
  -- assignments
  | define {target a : Expr} {name : String} {s t : Session} {x : Decimal}
      (htarget : target.target? = .ok name) (ha : Evaluates (.value a) s (.ok x) t) :
      Evaluates (.value (.call .define [target, a])) s (.ok x)
        { t with env := t.env.set name (.number x) }
  | defineFailed {target a : Expr} {name : String} {s t : Session} {error : EvalError}
      (htarget : target.target? = .ok name) (ha : Evaluates (.value a) s (.error error) t) :
      Evaluates (.value (.call .define [target, a])) s (.error error) t
  | defineRefused {target a : Expr} {s : Session} {error : EvalError}
      (htarget : target.target? = .error error) :
      Evaluates (.value (.call .define [target, a])) s (.error error) s
  -- series
  | series {f : Builtin} {kind : Series} {lower upper term : Expr} {s t u v : Session}
      {x y : Decimal} {answer : Except EvalError Decimal} (hrule : f.rule = .series kind)
      (hlower : Evaluates (.value lower) s (.ok x) t)
      (hupper : Evaluates (.value upper) t (.ok y) u) (hbounds : x.atMost y = true)
      (hrest : Evaluates (.rest kind term y x kind.identity) u answer v) :
      Evaluates (.value (.call f [lower, upper, term])) s answer
        { v with env := v.env.restore Series.indexName (u.env.get? Series.indexName) }
  | seriesLowerFailed {f : Builtin} {kind : Series} {lower upper term : Expr} {s t : Session}
      {error : EvalError} (hrule : f.rule = .series kind)
      (hlower : Evaluates (.value lower) s (.error error) t) :
      Evaluates (.value (.call f [lower, upper, term])) s (.error error) t
  | seriesUpperFailed {f : Builtin} {kind : Series} {lower upper term : Expr} {s t u : Session}
      {x : Decimal} {error : EvalError} (hrule : f.rule = .series kind)
      (hlower : Evaluates (.value lower) s (.ok x) t)
      (hupper : Evaluates (.value upper) t (.error error) u) :
      Evaluates (.value (.call f [lower, upper, term])) s (.error error) u
  | seriesRefused {f : Builtin} {kind : Series} {lower upper term : Expr} {s t u : Session}
      {x y : Decimal} (hrule : f.rule = .series kind)
      (hlower : Evaluates (.value lower) s (.ok x) t)
      (hupper : Evaluates (.value upper) t (.ok y) u) (hbounds : ¬ x.atMost y = true) :
      Evaluates (.value (.call f [lower, upper, term])) s (.error (.invalidBounds x y)) u
  | done {kind : Series} {term : Expr} {upper index total : Decimal} {s : Session}
      (hindex : ¬ index.atMost upper = true) :
      Evaluates (.rest kind term upper index total) s (.ok total) s
  | next {kind : Series} {term : Expr} {upper index total x total' : Decimal} {s t u : Session}
      {answer : Except EvalError Decimal} (hindex : index.atMost upper = true)
      (hterm : Evaluates (.value term) (Series.withIndex s index) (.ok x) t)
      (htotal : kind.combine total x = .ok total')
      (hrest : Evaluates (.rest kind term upper index.next total') t answer u) :
      Evaluates (.rest kind term upper index total) s answer u
  | termFailed {kind : Series} {term : Expr} {upper index total : Decimal} {s t : Session}
      {error : EvalError} (hindex : index.atMost upper = true)
      (hterm : Evaluates (.value term) (Series.withIndex s index) (.error error) t) :
      Evaluates (.rest kind term upper index total) s (.error error) t
  | totalFailed {kind : Series} {term : Expr} {upper index total x : Decimal} {s t : Session}
      {error : EvalError} (hindex : index.atMost upper = true)
      (hterm : Evaluates (.value term) (Series.withIndex s index) (.ok x) t)
      (htotal : kind.combine total x = .error error) :
      Evaluates (.rest kind term upper index total) s (.error error) t
  -- the remaining calls
  | random (s : Session) :
      Evaluates (.value (.call .random [])) s (Evaluation.draw s).1 (Evaluation.draw s).2
  | arity {f : Builtin} {args : List Expr} (s : Session) (hlength : args.length ≠ f.arity) :
      Evaluates (.value (.call f args)) s (.error (.arityMismatch f args)) s

/-! ## Evaluation follows the rules -/

/-- A computation ended as `R` says, or gave up on a cycle of bindings. -/
def Reaches (R : Except EvalError Decimal → Session → Prop)
    (result : Except EvalError Decimal × Session) : Prop :=
  R result.1 result.2 ∨ ∃ name, result.1 = .error (.circularBinding name)

namespace Reaches

variable {R R' : Except EvalError Decimal → Session → Prop}
  {result : Except EvalError Decimal × Session}

theorem mono (h : Reaches R result) (hR : ∀ answer t, R answer t → R' answer t) :
    Reaches R' result :=
  h.imp_left (hR _ _)

theorem bind {x : Evaluation Decimal} {g : Decimal → Evaluation Decimal} {s : Session}
    (hx : Reaches R (x s)) (hfailed : ∀ error t, R (.error error) t → R' (.error error) t)
    (hg : ∀ a t, R (.ok a) t → Reaches R' (g a t)) : Reaches R' ((x >>= g) s) := by
  rw [bind_apply]
  generalize x s = result at hx
  obtain ⟨error | a, t⟩ := result
  · exact hx.imp_left (hfailed error t)
  · obtain h | ⟨name, h⟩ := hx
    · exact hg a t h
    · cases h

/-- A last step that looks at the context only. -/
theorem bind_inContext {x : Evaluation Decimal} {g : Context → Decimal → Except EvalError Decimal}
    {s : Session} (hx : Reaches R (x s))
    (hg : ∀ answer t, R answer t → R' (answer >>= g t.env.context) t) :
    Reaches R' ((x >>= fun a => Evaluation.inContext fun c => g c a) s) :=
  hx.bind (fun error t h => hg (.error error) t h) fun a t h => .inl (hg (.ok a) t h)

end Reaches

namespace Expr

variable {follow : String → Expr → Evaluation Decimal}

/-- **The loop of a series follows the rules** if its term does. -/
theorem reaches_run {term : Expr} {x : Evaluation Decimal}
    (hterm : ∀ s, Reaches (Evaluates (.value term) s) (x s)) (kind : Series)
    (upper index total : Decimal) (s : Session) :
    Reaches (Evaluates (.rest kind term upper index total) s) (kind.run x upper index total s) := by
  refine Series.rounds (P := fun index total s =>
    Reaches (Evaluates (.rest kind term upper index total) s) (kind.run x upper index total s))
    kind x upper ?_ ?_ ?_ ?_ index total s
  · intro index total s h
    rw [Series.run_of_not h]
    exact .inl (.done h)
  · intro index total s error t h hx
    have hreaches := hterm (Series.withIndex s index)
    rw [hx] at hreaches
    rw [Series.run_of_error h hx]
    exact hreaches.imp_left (.termFailed h)
  · intro index total s a error t h hx he
    have hreaches := hterm (Series.withIndex s index)
    rw [hx] at hreaches
    rw [Series.run_of_stop h hx he]
    obtain hvalue | ⟨name, hname⟩ := hreaches
    · exact .inl (.totalFailed h hvalue he)
    · cases hname
  · intro index total s a total' t h hx htotal ih
    have hreaches := hterm (Series.withIndex s index)
    rw [hx] at hreaches
    rw [Series.run_of_ok h hx htotal]
    obtain hvalue | ⟨name, hname⟩ := hreaches
    · exact ih.mono fun answer u hrest => .next h hvalue htotal hrest
    · cases hname

/-- An evaluation follows the rules if following a binding does. -/
theorem reaches_evalWith
    (hfollow : ∀ name e s, Reaches (Evaluates (.value e) s) (follow name e s)) (e : Expr) :
    ∀ s, Reaches (Evaluates (.value e) s) (evalWith follow e s) := by
  induction e using Expr.induction with
  | number d =>
    intro s
    rw [evalWith_number]
    exact .inl (.number d s)
  | var name =>
    intro s
    cases hget : s.env.get? name with
    | none =>
      rw [evalWith_var_unbound hget]
      exact .inl (.unbound hget)
    | some bound =>
      by_cases hbound : ∃ d, bound = .number d
      · obtain ⟨d, rfl⟩ := hbound
        rw [evalWith_var_literal hget]
        exact .inl (.bound hget (.number d s))
      · rw [evalWith_var_bound hget (not_exists.mp hbound)]
        exact (hfollow name bound s).mono fun _ _ => .bound hget
  | unary op a iha =>
    intro s
    rw [evalWith]
    exact (iha s).bind_inContext (g := fun _ => op.applySign) fun _ _ => .unary op
  | binary op a b iha ihb =>
    intro s
    rw [evalWith]
    exact (iha s).bind (fun _ _ => .binaryFailed op) fun x t hx =>
      (ihb t).bind_inContext fun _ _ => .binary op hx
  | call f args ih =>
    intro s
    by_cases hlength : args.length = f.arity
    · obtain ⟨apply, a, hrule, rfl⟩ | ⟨apply, a, b, hrule, rfl⟩ | ⟨target, a, rfl, rfl⟩ |
        ⟨kind, lower, upper, term, hrule, rfl⟩ | ⟨rfl, rfl⟩ := call_shape hlength
      · rw [evalWith_call_unary hrule]
        exact (ih a (by simp) s).bind_inContext fun _ _ => .apply hrule
      · rw [evalWith_call_binary hrule]
        exact (ih a (by simp) s).bind (fun _ _ => .applyTwoFailed hrule) fun x t hx =>
          (ih b (by simp) t).bind_inContext fun _ _ => .applyTwo hrule hx
      · rw [evalWith_define]
        cases htarget : target.target? with
        | error error => exact .inl (.defineRefused htarget)
        | ok name =>
          exact (ih a (by simp) s).bind (fun _ _ => .defineFailed htarget) fun x t hx =>
            .inl (.define htarget hx)
      · rw [evalWith_series hrule]
        refine (ih lower (by simp) s).bind (fun _ _ => .seriesLowerFailed hrule) fun x t hx =>
          (ih upper (by simp) t).bind (fun _ _ => .seriesUpperFailed hrule hx) fun y u hy => ?_
        rw [Series.evaluate]
        split
        · next hbounds =>
            exact (reaches_run (ih term (by simp)) kind y x kind.identity u).imp_left
              (.series hrule hx hy hbounds)
        · next hbounds => exact .inl (.seriesRefused hrule hx hy hbounds)
      · exact .inl (.random s)
    · rw [evalWith_call_of_length_ne hlength]
      exact .inl (.arity s hlength)

/-- **Evaluation follows the rules or gives up**, however deep bindings may be nested. -/
theorem reaches_evalWithin : ∀ (n : Nat) (e : Expr) (s : Session),
    Reaches (Evaluates (.value e) s) (evalWithin n e s)
  | 0, e => reaches_evalWith (fun name _ _ => .inr ⟨name, rfl⟩) e
  | n + 1, e => reaches_evalWith (fun _ e s => reaches_evalWithin n e s) e

end Expr

/-! ## The rules give the answer of evaluation -/

/-- A task as a computation, with bindings nested at most `n` deep. -/
def Task.run (n : Nat) : Task → Evaluation Decimal
  | .value e => e.evalWith (Expr.followWithin n)
  | .rest kind term upper index total =>
    kind.run (term.evalWith (Expr.followWithin n)) upper index total

/-- From some depth on, the computation has this result. -/
def Settles (x : Nat → Evaluation Decimal) (s : Session)
    (result : Except EvalError Decimal × Session) : Prop :=
  ∃ n, ∀ m, n ≤ m → x m s = result

namespace Settles

variable {x : Nat → Evaluation Decimal} {g : Nat → Decimal → Evaluation Decimal} {s t : Session}
  {result : Except EvalError Decimal × Session}

theorem bind {a : Decimal} (hx : Settles x s (.ok a, t)) (hg : Settles (g · a) t result) :
    Settles (fun n => x n >>= g n) s result := by
  obtain ⟨n₁, h₁⟩ := hx
  obtain ⟨n₂, h₂⟩ := hg
  refine ⟨max n₁ n₂, fun m hm => ?_⟩
  have hx : x m s = (.ok a, t) := h₁ m (by omega)
  change (x m >>= g m) s = result
  rw [bind_apply, hx]
  exact h₂ m (by omega)

theorem bind_error {error : EvalError} (hx : Settles x s (.error error, t)) :
    Settles (fun n => x n >>= g n) s (.error error, t) := by
  obtain ⟨n, hn⟩ := hx
  refine ⟨n, fun m hm => ?_⟩
  change (x m >>= g m) s = (.error error, t)
  rw [bind_apply, hn m hm]

theorem bind_inContext {answer : Except EvalError Decimal}
    {g : Context → Decimal → Except EvalError Decimal} (hx : Settles x s (answer, t)) :
    Settles (fun n => x n >>= fun a => Evaluation.inContext fun c => g c a) s
      (answer >>= g t.env.context, t) := by
  cases answer with
  | error error => exact hx.bind_error
  | ok a => exact hx.bind ⟨0, fun _ _ => rfl⟩

end Settles

namespace Evaluates

open Abacus.Expr

variable {task : Task} {s t t' : Session} {answer answer' : Except EvalError Decimal}

/-- A variable settles one level of nesting after its binding. -/
theorem settles_var {name : String} {e : Expr} (hname : s.env.get? name = some e)
    (he : Settles (Task.run · (.value e)) s (answer, t)) :
    Settles (Task.run · (.value (.var name))) s (answer, t) := by
  obtain ⟨n, hn⟩ := he
  refine ⟨n + 1, fun m hm => ?_⟩
  obtain ⟨m, rfl⟩ : ∃ k, m = k + 1 := ⟨m - 1, by omega⟩
  rw [← hn m (by omega)]
  change evalWith (followWithin (m + 1)) (.var name) s = evalWith (followWithin m) e s
  by_cases hliteral : ∃ d, e = .number d
  · obtain ⟨d, rfl⟩ := hliteral
    rw [evalWith_var_literal hname, evalWith_number]
  · rw [evalWith_var_bound hname (not_exists.mp hliteral), followWithin, evalWithin_eq]

/-- **What the rules derive is the answer of evaluation from some depth on.** -/
theorem eventually (h : Evaluates task s answer t) : Settles (Task.run · task) s (answer, t) := by
  induction h with
  | number d s =>
    simp only [Task.run]
    exact ⟨0, fun _ _ => evalWith_number d s⟩
  | unbound hname => exact ⟨0, fun _ _ => evalWith_var_unbound hname⟩
  | bound hname _ ih => exact settles_var hname ih
  | unary op _ iha =>
    simp only [Task.run, evalWith]
    exact iha.bind_inContext (g := fun _ => op.applySign)
  | binary op _ _ iha ihb =>
    simp only [Task.run, evalWith]
    exact iha.bind ihb.bind_inContext
  | binaryFailed op _ iha =>
    simp only [Task.run, evalWith]
    exact iha.bind_error
  | apply hrule _ iha =>
    simp only [Task.run, evalWith_call_unary hrule]
    exact iha.bind_inContext
  | applyTwo hrule _ _ iha ihb =>
    simp only [Task.run, evalWith_call_binary hrule]
    exact iha.bind ihb.bind_inContext
  | applyTwoFailed hrule _ iha =>
    simp only [Task.run, evalWith_call_binary hrule]
    exact iha.bind_error
  | define htarget _ iha =>
    simp only [Task.run, evalWith_define, htarget]
    exact iha.bind ⟨0, fun _ _ => rfl⟩
  | defineFailed htarget _ iha =>
    simp only [Task.run, evalWith_define, htarget]
    exact iha.bind_error
  | defineRefused htarget =>
    simp only [Task.run, evalWith_define, htarget]
    exact ⟨0, fun _ _ => rfl⟩
  | series hrule _ _ hbounds _ ihlower ihupper ihrest =>
    simp only [Task.run, evalWith_series hrule]
    obtain ⟨n, hn⟩ := ihrest
    refine ihlower.bind (ihupper.bind ⟨n, fun m hm => ?_⟩)
    have hrun : Series.run _ _ _ _ _ _ = _ := hn m hm
    simp only [Series.evaluate, if_pos hbounds, keeping, hrun]
  | seriesLowerFailed hrule _ ihlower =>
    simp only [Task.run, evalWith_series hrule]
    exact ihlower.bind_error
  | seriesUpperFailed hrule _ _ ihlower ihupper =>
    simp only [Task.run, evalWith_series hrule]
    exact ihlower.bind ihupper.bind_error
  | seriesRefused hrule _ _ hbounds ihlower ihupper =>
    simp only [Task.run, evalWith_series hrule]
    simp only [Series.evaluate]
    refine ihlower.bind (ihupper.bind ⟨0, fun m _ => ?_⟩)
    simp only [if_neg hbounds]
    rfl
  | done hindex => exact ⟨0, fun _ _ => Series.run_of_not hindex⟩
  | next hindex _ htotal _ ihterm ihrest =>
    obtain ⟨n₁, h₁⟩ := ihterm
    obtain ⟨n₂, h₂⟩ := ihrest
    refine ⟨max n₁ n₂, fun m hm => ?_⟩
    exact (Series.run_of_ok hindex (h₁ m (by omega)) htotal).trans (h₂ m (by omega))
  | termFailed hindex _ ihterm =>
    obtain ⟨n, hn⟩ := ihterm
    exact ⟨n, fun m hm => Series.run_of_error hindex (hn m hm)⟩
  | totalFailed hindex _ htotal ihterm =>
    obtain ⟨n, hn⟩ := ihterm
    exact ⟨n, fun m hm => Series.run_of_stop hindex (hn m hm) htotal⟩
  | random s =>
    simp only [Task.run, evalWith_random]
    exact ⟨0, fun _ _ => rfl⟩
  | arity s hlength =>
    simp only [Task.run, evalWith_call_of_length_ne hlength]
    exact ⟨0, fun _ _ => rfl⟩

/-- **The rules give one answer at most.** -/
theorem unique (h : Evaluates task s answer t) (h' : Evaluates task s answer' t') :
    (answer, t) = (answer', t') := by
  obtain ⟨n, hn⟩ := h.eventually
  obtain ⟨n', hn'⟩ := h'.eventually
  exact (hn (max n n') (by omega)).symm.trans (hn' (max n n') (by omega))

/-- **Where evaluation does not give up, it answers what the rules say and nothing else.** -/
theorem iff_evalWithin {e : Expr} {n : Nat}
    (h : ∀ name, (e.evalWithin n s).1 ≠ .error (.circularBinding name)) :
    Evaluates (.value e) s answer t ↔ e.evalWithin n s = (answer, t) := by
  have hrules : Evaluates (.value e) s (e.evalWithin n s).1 (e.evalWithin n s).2 :=
    (reaches_evalWithin n e s).resolve_right fun ⟨name, hname⟩ => h name hname
  constructor
  · exact hrules.unique
  · intro heq
    rwa [heq] at hrules

end Evaluates

end Abacus
