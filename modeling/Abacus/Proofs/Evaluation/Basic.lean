import Abacus.Evaluation

/-!
# Proofs/Evaluation/Basic — the shapes of a call, and what each of them evaluates to

A call with as many arguments as its function takes has one of five shapes, read off the rule of its
function (`call_shape`), and for each shape one equation says what evaluating it does.  Any other
call fails (`evalWith_call_of_length_ne`).
-/

namespace Abacus

theorem Evaluation.bind_apply {α β : Type} (x : Evaluation α) (f : α → Evaluation β)
    (s : Session) :
    (x >>= f) s = match x s with
      | (.ok a, s) => f a s
      | (.error e, s) => (.error e, s) :=
  rfl

namespace Evaluation

theorem map_id {α : Type} (x : Evaluation α) : id <$> x = x := by
  funext s
  show (x >>= fun a => pure (id a)) s = x s
  rw [bind_apply]
  obtain ⟨e | a, s'⟩ := x s
  · rfl
  · rfl

theorem assoc {α β γ : Type} (x : Evaluation α) (f : α → Evaluation β) (g : β → Evaluation γ) :
    x >>= f >>= g = x >>= fun a => f a >>= g := by
  funext s
  simp only [bind_apply]
  obtain ⟨e | a, s'⟩ := x s
  · rfl
  · rfl

instance : LawfulMonad Evaluation :=
  LawfulMonad.mk' Evaluation map_id (fun _ _ => rfl) assoc

end Evaluation

/-- The number of arguments that a rule is for. -/
def Rule.arity : Rule → Nat
  | .unary _ => 1
  | .binary _ => 2
  | .assignment => 2
  | .series _ => 3
  | .random => 0

/-- **A function takes as many arguments as its rule is for.** -/
theorem Builtin.rule_arity (f : Builtin) : f.rule.arity = f.arity := by
  cases f <;> rfl

theorem Builtin.eq_define_of_rule {f : Builtin} (h : f.rule = .assignment) : f = .define := by
  cases f <;> first | rfl | cases h

theorem Builtin.eq_random_of_rule {f : Builtin} (h : f.rule = .random) : f = .random := by
  cases f <;> first | rfl | cases h

namespace Expr

/-- **The shapes of a call** that has as many arguments as its function takes. -/
theorem call_shape {f : Builtin} {args : List Expr} (h : args.length = f.arity) :
    (∃ apply a, f.rule = .unary apply ∧ args = [a]) ∨
    (∃ apply a b, f.rule = .binary apply ∧ args = [a, b]) ∨
    (∃ target a, f = .define ∧ args = [target, a]) ∨
    (∃ kind lower upper term, f.rule = .series kind ∧ args = [lower, upper, term]) ∨
    (f = .random ∧ args = []) := by
  rw [← f.rule_arity] at h
  cases hrule : f.rule with
  | unary apply =>
    rw [hrule] at h
    match args, h with
    | [a], _ => exact .inl ⟨apply, a, rfl, rfl⟩
  | binary apply =>
    rw [hrule] at h
    match args, h with
    | [a, b], _ => exact .inr (.inl ⟨apply, a, b, rfl, rfl⟩)
  | assignment =>
    rw [hrule] at h
    match args, h with
    | [target, a], _ =>
      exact .inr (.inr (.inl ⟨target, a, Builtin.eq_define_of_rule hrule, rfl⟩))
  | series kind =>
    rw [hrule] at h
    match args, h with
    | [lower, upper, term], _ =>
      exact .inr (.inr (.inr (.inl ⟨kind, lower, upper, term, rfl, rfl⟩)))
  | random =>
    rw [hrule] at h
    match args, h with
    | [], _ => exact .inr (.inr (.inr (.inr ⟨Builtin.eq_random_of_rule hrule, rfl⟩)))

variable {follow : String → Expr → Evaluation Decimal} {f : Builtin}

@[simp] theorem evalWith_number (d : Decimal) (s : Session) :
    evalWith follow (.number d) s = (.ok d, s) :=
  rfl

theorem evalWith_var_unbound {name : String} {s : Session} (h : s.env.get? name = none) :
    evalWith follow (.var name) s = (.error (.unknownVariable name), s) := by
  simp only [evalWith, h]

theorem evalWith_var_literal {name : String} {s : Session} {d : Decimal}
    (h : s.env.get? name = some (.number d)) : evalWith follow (.var name) s = (.ok d, s) := by
  simp only [evalWith, h]

/-- A binding that is no literal is followed. -/
theorem evalWith_var_bound {name : String} {s : Session} {e : Expr}
    (h : s.env.get? name = some e) (he : ∀ d, e ≠ .number d) :
    evalWith follow (.var name) s = follow name e s := by
  cases e with
  | number d => exact absurd rfl (he d)
  | _ => simp only [evalWith, h]

theorem evalWith_call_unary {apply : Context → Decimal → Except EvalError Decimal}
    (h : f.rule = .unary apply) (a : Expr) :
    evalWith follow (.call f [a]) = (do
      let x ← evalWith follow a
      Evaluation.inContext fun c => apply c x) := by
  rw [evalWith.eq_def]
  simp only [h]

theorem evalWith_call_binary {apply : Context → Decimal → Decimal → Except EvalError Decimal}
    (h : f.rule = .binary apply) (a b : Expr) :
    evalWith follow (.call f [a, b]) = (do
      let x ← evalWith follow a
      let y ← evalWith follow b
      Evaluation.inContext fun c => apply c x y) := by
  rw [evalWith.eq_def]
  simp only [h]

theorem evalWith_define (target a : Expr) :
    evalWith follow (.call .define [target, a]) = (do
      let name ← Evaluation.lift target.target?
      let x ← evalWith follow a
      Evaluation.assign name (.number x)
      pure x) :=
  rfl

theorem evalWith_series {kind : Series} (h : f.rule = .series kind) (lower upper term : Expr) :
    evalWith follow (.call f [lower, upper, term]) = (do
      let x ← evalWith follow lower
      let y ← evalWith follow upper
      kind.evaluate x y (evalWith follow term)) := by
  rw [evalWith.eq_def]
  simp only [h]

theorem evalWith_random : evalWith follow (.call .random []) = Evaluation.draw :=
  rfl

/-- A call with another number of arguments than its function takes fails. -/
theorem evalWith_call_of_length_ne {args : List Expr} (h : args.length ≠ f.arity) :
    evalWith follow (.call f args) = Evaluation.fail (.arityMismatch f args) := by
  rw [← f.rule_arity] at h
  unfold evalWith
  split
  · next hrule => exact absurd (by rw [hrule]; rfl) h
  · next hrule => exact absurd (by rw [hrule]; rfl) h
  · next hrule => exact absurd (by rw [hrule]; rfl) h
  · next hrule => exact absurd (by rw [hrule]; rfl) h
  · next hrule => exact absurd (by rw [hrule]; rfl) h
  · rfl

/-- What evaluation does with a binding, when bindings may be nested at most `n` deep. -/
def followWithin : Nat → String → Expr → Evaluation Decimal
  | 0, name, _ => Evaluation.fail (.circularBinding name)
  | n + 1, _, e => evalWithin n e

/-- Evaluation with bindings nested so deep is evaluation with a way to follow a binding. -/
theorem evalWithin_eq : ∀ (n : Nat) (e : Expr), evalWithin n e = evalWith (followWithin n) e
  | 0, e => by
      rw [evalWithin]
      rfl
  | n + 1, e => by
      rw [evalWithin]
      rfl

theorem exists_evalWithin_eq (n : Nat) :
    ∃ follow, ∀ e : Expr, evalWithin n e = evalWith follow e :=
  ⟨followWithin n, evalWithin_eq n⟩

/-- **A series whose bounds have values** runs between them, in the session that they leave. -/
theorem evalWithin_series {n : Nat} {kind : Series} (h : f.rule = .series kind)
    {lower upper : Expr} (term : Expr) {x y : Decimal} {s s₁ s₂ : Session}
    (hx : evalWithin n lower s = (.ok x, s₁)) (hy : evalWithin n upper s₁ = (.ok y, s₂)) :
    evalWithin n (.call f [lower, upper, term]) s = kind.evaluate x y (evalWithin n term) s₂ := by
  obtain ⟨follow, hfollow⟩ := exists_evalWithin_eq n
  rw [hfollow] at hx hy ⊢
  rw [evalWith_series h, Evaluation.bind_apply, hx]
  change (evalWith follow upper >>= _) s₁ = _
  rw [Evaluation.bind_apply, hy, hfollow]

@[simp] theorem evalWithin_number (n : Nat) (d : Decimal) (s : Session) :
    evalWithin n (.number d) s = (.ok d, s) := by
  obtain ⟨follow, hfollow⟩ := exists_evalWithin_eq n
  rw [hfollow, evalWith_number]

/-- **A call on the value of its one argument**, in the session that the argument leaves. -/
theorem evalWithin_call_unary {apply : Context → Decimal → Except EvalError Decimal} {n : Nat}
    (h : f.rule = .unary apply) {a : Expr} {x : Decimal} {s s₁ : Session}
    (hx : evalWithin n a s = (.ok x, s₁)) :
    evalWithin n (.call f [a]) s = (apply s₁.env.context x, s₁) := by
  obtain ⟨follow, hfollow⟩ := exists_evalWithin_eq n
  rw [hfollow] at hx ⊢
  rw [evalWith_call_unary h, Evaluation.bind_apply, hx]
  rfl

/-- **A call on the values of its two arguments**, the second in the session that the first
leaves. -/
theorem evalWithin_call_binary
    {apply : Context → Decimal → Decimal → Except EvalError Decimal} {n : Nat}
    (h : f.rule = .binary apply) {a b : Expr} {x y : Decimal} {s s₁ s₂ : Session}
    (hx : evalWithin n a s = (.ok x, s₁)) (hy : evalWithin n b s₁ = (.ok y, s₂)) :
    evalWithin n (.call f [a, b]) s = (apply s₂.env.context x y, s₂) := by
  obtain ⟨follow, hfollow⟩ := exists_evalWithin_eq n
  rw [hfollow] at hx hy ⊢
  rw [evalWith_call_binary h, Evaluation.bind_apply, hx]
  change (evalWith follow b >>= _) s₁ = _
  rw [Evaluation.bind_apply, hy]
  rfl

theorem eval_call_number {apply : Context → Decimal → Except EvalError Decimal}
    (h : f.rule = .unary apply) (x : Decimal) (s : Session) :
    (call f [.number x]).eval s = (apply s.env.context x, s) :=
  evalWithin_call_unary h (evalWithin_number _ x s)

theorem eval_call_numbers {apply : Context → Decimal → Decimal → Except EvalError Decimal}
    (h : f.rule = .binary apply) (x y : Decimal) (s : Session) :
    (call f [.number x, .number y]).eval s = (apply s.env.context x y, s) :=
  evalWithin_call_binary h (evalWithin_number _ x s) (evalWithin_number _ y s)

/-- A minus before an expression that has a value. -/
theorem evalWithin_minus {n : Nat} {a : Expr} {x : Decimal} {s s₁ : Session}
    (hx : evalWithin n a s = (.ok x, s₁)) :
    evalWithin n (.unary .minus a) s = (.ok x.neg, s₁) := by
  obtain ⟨follow, hfollow⟩ := exists_evalWithin_eq n
  rw [hfollow] at hx ⊢
  rw [evalWith, Evaluation.bind_apply, hx]
  rfl

end Expr

end Abacus
