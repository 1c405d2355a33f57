import Abacus.Proofs.Evaluation.Failure
import Abacus.Proofs.Expr.Simplify

/-!
# Proofs/Expr/Folding — simplification runs the evaluator

A fold has the evaluator compute the answer of a node whose parts are literals (`foldIn`).  The
evaluator may change the session that it runs in, and it may stop the program.  At such a node it
never does the one (`session_eval_of_isReady`), and the other only for a product of two literals whose
scale leaves 64 bits although their scales add up to fewer (`stopsAt_iff`).

    e  ──simplifyIn──▶  e.simplify          (no part of e.simplify stops)
                        the program stops   (some part does)

So running the simplification of an expression is asking for the simplified expression
(`simplifyIn_of_not_stops`), unless that holds a product that the program cannot compute
(`simplifyIn_of_stops`).
-/

namespace Abacus

open Evaluation

namespace Builtin

/-- **A folding function is given one value or two**, and nothing else. -/
theorem rule_of_folds {f : Builtin} (h : f.folds = true) :
    (∃ apply, f.rule = .unary apply) ∨ ∃ apply, f.rule = .binary apply := by
  cases f <;> first | exact .inl ⟨_, rfl⟩ | exact .inr ⟨_, rfl⟩ | cases h

/-- So it has an answer for any values, if there are as many as it takes. -/
theorem length_ne_of_applyTo?_eq_none {f : Builtin} {c : Context} {ds : List Decimal}
    (hf : f.folds = true) (h : f.applyTo? c ds = none) : ds.length ≠ f.arity := by
  intro hlength
  rw [← f.rule_arity] at hlength
  obtain ⟨apply, hrule⟩ | ⟨apply, hrule⟩ := rule_of_folds hf
  · rw [hrule] at hlength
    match ds, hlength with
    | [x], _ => simp [applyTo?, hrule] at h
  · rw [hrule] at hlength
    match ds, hlength with
    | [x, y], _ => simp [applyTo?, hrule] at h

/-- What a function makes of values fails only for what is looked out for, unless it multiplies. -/
theorem failsWith_applyTo? {f : Builtin} (hf : f ≠ .times) {c : Context} {ds : List Decimal}
    {answer : Except EvalError Decimal} (h : f.applyTo? c ds = some answer) :
    FailsWith EvalError.Checked answer := by
  unfold applyTo? at h
  split at h
  · next hrule =>
      obtain rfl := Option.some.inj h
      exact f.failsWith_unary hrule c _
  · next hrule =>
      obtain rfl := Option.some.inj h
      exact failsWith_binary_of_ne hf hrule c _ _
  · cases h

end Builtin

/-- **The program stops at the product of two decimals**: their scales add up to 64 bits, and the
scale of the product does not fit. -/
def Decimal.TimesStops (a b : Decimal) : Prop :=
  ScaleFits (a.scale + b.scale) ∧ ¬ ScaleFits (a.mul b).scale

theorem Decimal.mulChecked_eq_stopped_iff {a b : Decimal} :
    a.mulChecked b = .error .stopped ↔ a.TimesStops b := by
  rw [mulChecked]
  split
  · next hsum =>
      rw [stored]
      split
      · next hmul => exact iff_of_false nofun fun h => h.2 hmul
      · next hmul => exact iff_of_true rfl ⟨hsum, hmul⟩
  · next hsum => exact iff_of_false nofun fun h => hsum h.1

namespace Expr

variable {s : Session}

/-! ## Nodes whose parts are literals -/

theorem eval_of_evalWith {e : Expr} {answer : Except EvalError Decimal}
    (h : ∀ follow, evalWith follow e s = (answer, s)) : e.eval s = (answer, s) := by
  obtain ⟨follow, hfollow⟩ := exists_evalWithin_eq (nestingLimit s.env)
  rw [eval, hfollow]
  exact h follow

theorem eval_unary_literal (op : Operator) (x : Decimal) :
    (unary op (.number x)).eval s = (op.applySign x, s) :=
  eval_of_evalWith fun _ => evalWith_unary_literal op x

theorem eval_binary_literals (op : Operator) (x y : Decimal) :
    (binary op (.number x) (.number y)).eval s = (op.apply s.env.context x y, s) :=
  eval_of_evalWith fun _ => evalWith_binary_literals op x y

/-- A call of a folding function on literals answers what the function makes of them, if they are as
many as it takes, and fails if not. -/
theorem eval_call_literals {f : Builtin} (hf : f.folds = true) (ds : List Decimal) :
    (call f (ds.map .number)).eval s =
      ((f.applyTo? s.env.context ds).getD (.error (.arityMismatch f (ds.map .number))), s) := by
  cases happly : f.applyTo? s.env.context ds with
  | some answer => exact eval_of_evalWith fun _ => evalWith_call_literals happly
  | none =>
    have hlength : (ds.map Expr.number).length ≠ f.arity := by
      rw [List.length_map]
      exact Builtin.length_ne_of_applyTo?_eq_none hf happly
    exact eval_of_evalWith fun _ => congrFun (evalWith_call_of_length_ne hlength) s

/-- **The shapes of a node whose parts are literals.** -/
theorem ready_shape {e : Expr} (h : e.isReady = true) :
    (∃ op x, e = .unary op (.number x)) ∨ (∃ op x y, e = .binary op (.number x) (.number y)) ∨
      ∃ f, ∃ ds : List Decimal, f.folds = true ∧ e = .call f (ds.map .number) := by
  cases e with
  | number d => cases h
  | var name => cases h
  | unary op a =>
    obtain ⟨x, hx⟩ := Option.isSome_iff_exists.mp h
    exact .inl ⟨op, x, by rw [eq_number_of_literal? hx]⟩
  | binary op a b =>
    obtain ⟨ha, hb⟩ := Bool.and_eq_true_iff.mp h
    obtain ⟨x, hx⟩ := Option.isSome_iff_exists.mp ha
    obtain ⟨y, hy⟩ := Option.isSome_iff_exists.mp hb
    exact .inr (.inl ⟨op, x, y, by rw [eq_number_of_literal? hx, eq_number_of_literal? hy]⟩)
  | call f args =>
    obtain ⟨hf, hargs⟩ := Bool.and_eq_true_iff.mp h
    obtain ⟨ds, hds⟩ := Option.isSome_iff_exists.mp hargs
    exact .inr (.inr ⟨f, ds, hf, by rw [eq_map_of_literals? hds]⟩)

/-- **The evaluator leaves the session alone** at such a node. -/
theorem session_eval_of_isReady {e : Expr} (h : e.isReady = true) (s : Session) :
    (e.eval s).2 = s := by
  obtain ⟨op, x, rfl⟩ | ⟨op, x, y, rfl⟩ | ⟨f, ds, hf, rfl⟩ := ready_shape h
  · rw [eval_unary_literal]
  · rw [eval_binary_literals]
  · rw [eval_call_literals hf]

/-! ## Products that stop the program -/

/-- **A product of literals at which the program stops**, be it written as an operator or as a
call. -/
def StopsAt : Expr → Prop
  | .binary .times (.number a) (.number b) => a.TimesStops b
  | .call .times [.number a, .number b] => a.TimesStops b
  | _ => False

theorem applySign_ne_stopped (op : Operator) (x : Decimal) :
    op.applySign x ≠ .error .stopped := by
  cases op <;> nofun

theorem apply_eq_stopped_iff {op : Operator} {c : Context} {x y : Decimal} :
    op.apply c x y = .error .stopped ↔ op = .times ∧ x.TimesStops y := by
  by_cases hop : op = .times
  · subst hop
    exact Decimal.mulChecked_eq_stopped_iff.trans (and_iff_right rfl).symm
  · exact iff_of_false ((op.failsWith_apply_of_ne hop c x y).ne_error id) fun h => hop h.1

/-- **The evaluator stops the program** at a node whose parts are literals exactly if that is such a
product. -/
theorem stopsAt_iff (e : Expr) (s : Session) :
    StopsAt e ↔ e.isReady = true ∧ (e.eval s).1 = .error .stopped := by
  constructor
  · intro h
    unfold StopsAt at h
    split at h
    · next a b =>
        rw [eval_binary_literals]
        exact ⟨rfl, Decimal.mulChecked_eq_stopped_iff.mpr h⟩
    · next a b =>
        rw [eval_call_numbers (f := .times) rfl]
        exact ⟨rfl, Decimal.mulChecked_eq_stopped_iff.mpr h⟩
    · exact h.elim
  · rintro ⟨hready, hstopped⟩
    obtain ⟨op, x, rfl⟩ | ⟨op, x, y, rfl⟩ | ⟨f, ds, hf, rfl⟩ := ready_shape hready
    · -- a sign has no scale to compute
      rw [eval_unary_literal] at hstopped
      exact absurd hstopped (applySign_ne_stopped op x)
    · rw [eval_binary_literals] at hstopped
      obtain ⟨rfl, h⟩ := apply_eq_stopped_iff.mp hstopped
      exact h
    · rw [eval_call_literals hf] at hstopped
      cases happly : f.applyTo? s.env.context ds with
      | none =>
        rw [happly] at hstopped
        cases hstopped
      | some answer =>
        obtain rfl : answer = .error .stopped := by rwa [happly] at hstopped
        -- every other function only fails for what it looks out for
        by_cases htimes : f = .times
        · subst htimes
          match ds, happly with
          | [x, y], happly => exact Decimal.mulChecked_eq_stopped_iff.mp (Option.some.inj happly)
        · exact (Builtin.failsWith_applyTo? htimes happly).elim

/-! ## Folds -/

/-- A node, or the literal that it comes to in a session. -/
def fold (s : Session) (e : Expr) : Expr :=
  if e.isReady then literalOr e (e.eval s).1 else e

theorem fold_of_not_isReady {e : Expr} (h : ¬ e.isReady = true) : e.fold s = e :=
  if_neg h

theorem fold_of_isReady {e : Expr} (h : e.isReady = true) : e.fold s = literalOr e (e.eval s).1 :=
  if_pos h

theorem fold_unary (op : Operator) (a : Expr) : (unary op a).fold s = foldUnary op a := by
  rw [foldUnary]
  split
  · next x hx =>
      obtain rfl := eq_number_of_literal? hx
      rw [fold_of_isReady rfl, eval_unary_literal]
  · next hx => exact fold_of_not_isReady (by simp [isReady, hx])

theorem fold_binary (op : Operator) (a b : Expr) :
    (binary op a b).fold s = foldBinary s.env.context op a b := by
  rw [foldBinary]
  split
  · next x y hx hy =>
      obtain rfl := eq_number_of_literal? hx
      obtain rfl := eq_number_of_literal? hy
      rw [fold_of_isReady rfl, eval_binary_literals]
  · next h =>
      refine fold_of_not_isReady fun hready => ?_
      obtain ⟨ha, hb⟩ := Bool.and_eq_true_iff.mp hready
      obtain ⟨x, hx⟩ := Option.isSome_iff_exists.mp ha
      obtain ⟨y, hy⟩ := Option.isSome_iff_exists.mp hb
      exact h x y hx hy

theorem fold_call (f : Builtin) (args : List Expr) :
    (call f args).fold s = foldCall s.env.context f args := by
  rw [foldCall]
  split
  · next hf =>
      cases hds : literals? args with
      | none => exact fold_of_not_isReady (by simp [isReady, hds])
      | some ds =>
        have hready : (call f args).isReady = true := by simp [isReady, hf, hds]
        obtain rfl := eq_map_of_literals? hds
        rw [fold_of_isReady hready, eval_call_literals hf, Option.bind_some]
        cases f.applyTo? s.env.context ds with
        | none => rfl
        | some answer => rfl
  · next hf => exact fold_of_not_isReady (by simp [isReady, hf])

theorem foldIn_of_stopsAt {e : Expr} (h : StopsAt e) : e.foldIn s = (.error .stopped, s) := by
  obtain ⟨hready, hstopped⟩ := (stopsAt_iff e s).mp h
  have heval : e.eval s = (.error .stopped, s) := Prod.ext hstopped (session_eval_of_isReady hready s)
  rw [foldIn, if_pos hready, heval]

/-- **A fold leaves the session alone**, and gives the literal that the node comes to, or the
node. -/
theorem foldIn_of_not_stopsAt {e : Expr} (h : ¬ StopsAt e) : e.foldIn s = (.ok (e.fold s), s) := by
  rw [foldIn, fold]
  split
  · next hready =>
      have hsession := session_eval_of_isReady hready s
      have hgoes : (e.eval s).1 ≠ .error .stopped := fun hstopped =>
        h ((stopsAt_iff e s).mpr ⟨hready, hstopped⟩)
      generalize e.eval s = answer at hsession hgoes
      obtain ⟨error | d, s'⟩ := answer
      · obtain rfl : s' = s := hsession
        cases error with
        | stopped => exact absurd rfl hgoes
        | _ => rfl
      · obtain rfl : s' = s := hsession
        rfl
  · rfl

/-! ## Occurrences -/

/-- An expression occurs in another: it is that, or occurs in a part of it that has a value.  The
target of an assignment is no such part. -/
inductive OccursIn (part : Expr) : Expr → Prop where
  | whole : OccursIn part part
  | operand {op : Operator} {a : Expr} (h : OccursIn part a) : OccursIn part (.unary op a)
  | left {op : Operator} {a b : Expr} (h : OccursIn part a) : OccursIn part (.binary op a b)
  | right {op : Operator} {a b : Expr} (h : OccursIn part b) : OccursIn part (.binary op a b)
  | argument {f : Builtin} {args : List Expr} {a : Expr} (ha : a ∈ args.drop f.targets)
      (h : OccursIn part a) : OccursIn part (.call f args)

/-- The parts of an expression that have a value, one level down. -/
def parts : Expr → List Expr
  | .number _ => []
  | .var _ => []
  | .unary _ a => [a]
  | .binary _ a b => [a, b]
  | .call f args => args.drop f.targets

/-- The parts of a call whose arguments were replaced, but for the target of an assignment. -/
theorem parts_call_replaced (f : Builtin) (args : List Expr) (g : Expr → Expr) :
    (call f (args.take f.targets ++ (args.drop f.targets).map g)).parts =
      (args.drop f.targets).map g := by
  rw [parts]
  rcases Nat.le_total f.targets args.length with h | h
  · exact List.drop_left' (List.length_take_of_le h)
  · rw [List.drop_eq_nil_of_le h, List.map_nil, List.append_nil, List.take_of_length_le h,
      List.drop_eq_nil_of_le h]

theorem occursIn_iff {part e : Expr} :
    OccursIn part e ↔ part = e ∨ ∃ a ∈ e.parts, OccursIn part a := by
  constructor
  · rintro (_ | h | h | h | ⟨ha, h⟩)
    · exact .inl rfl
    · exact .inr ⟨_, List.mem_singleton.mpr rfl, h⟩
    · exact .inr ⟨_, List.mem_cons_self, h⟩
    · exact .inr ⟨_, List.mem_cons_of_mem _ List.mem_cons_self, h⟩
    · exact .inr ⟨_, ha, h⟩
  · rintro (rfl | ⟨a, ha, h⟩)
    · exact .whole
    · cases e with
      | number d => cases ha
      | var name => cases ha
      | unary op a' =>
        obtain rfl := List.mem_singleton.mp ha
        exact h.operand
      | binary op a' b' =>
        obtain rfl | ha := List.mem_cons.mp ha
        · exact h.left
        · obtain rfl := List.mem_singleton.mp ha
          exact h.right
      | call f args => exact h.argument ha

/-- **What holds of everything that occurs in an expression** holds of it and of all that occurs in
its parts. -/
theorem forall_occursIn_iff {P : Expr → Prop} {e : Expr} :
    (∀ part, OccursIn part e → P part) ↔
      P e ∧ ∀ a ∈ e.parts, ∀ part, OccursIn part a → P part := by
  constructor
  · exact fun h => ⟨h e .whole, fun a ha part hpart =>
      h part (occursIn_iff.mpr (.inr ⟨a, ha, hpart⟩))⟩
  · rintro ⟨hwhole, hparts⟩ part hpart
    obtain rfl | ⟨a, ha, hpart⟩ := occursIn_iff.mp hpart
    · exact hwhole
    · exact hparts a ha part hpart

/-- The parts of a node whose parts are literals. -/
theorem exists_number_of_mem_parts {e a : Expr} (h : e.isReady = true) (ha : a ∈ e.parts) :
    ∃ d, a = .number d := by
  obtain ⟨op, x, rfl⟩ | ⟨op, x, y, rfl⟩ | ⟨f, ds, hf, rfl⟩ := ready_shape h
  · exact ⟨x, List.mem_singleton.mp ha⟩
  · obtain rfl | ha := List.mem_cons.mp ha
    · exact ⟨x, rfl⟩
    · exact ⟨y, List.mem_singleton.mp ha⟩
  · obtain ⟨d, -, rfl⟩ := List.mem_map.mp (List.mem_of_mem_drop ha)
    exact ⟨d, rfl⟩

/-- **Somewhere in the expression there is a product at which the program stops.** -/
def Stops (e : Expr) : Prop :=
  ∃ part, OccursIn part e ∧ StopsAt part

theorem stops_iff {e : Expr} : e.Stops ↔ StopsAt e ∨ ∃ a ∈ e.parts, a.Stops := by
  constructor
  · rintro ⟨part, hpart, h⟩
    obtain rfl | ⟨a, ha, hpart⟩ := occursIn_iff.mp hpart
    · exact .inl h
    · exact .inr ⟨a, ha, part, hpart, h⟩
  · rintro (h | ⟨a, ha, part, hpart, h⟩)
    · exact ⟨e, .whole, h⟩
    · exact ⟨part, occursIn_iff.mpr (.inr ⟨a, ha, hpart⟩), h⟩

@[simp] theorem not_stops_number (d : Decimal) : ¬ (number d).Stops :=
  fun h => (stops_iff.mp h).elim id fun ⟨_, ha, _⟩ => List.not_mem_nil ha

@[simp] theorem not_stops_var (name : String) : ¬ (var name).Stops :=
  fun h => (stops_iff.mp h).elim id fun ⟨_, ha, _⟩ => List.not_mem_nil ha

@[simp] theorem stops_binary_iff {op : Operator} {a b : Expr} :
    (binary op a b).Stops ↔ StopsAt (.binary op a b) ∨ a.Stops ∨ b.Stops := by
  rw [stops_iff]
  simp [parts]

@[simp] theorem stops_call_iff {f : Builtin} {args : List Expr} :
    (call f args).Stops ↔ StopsAt (.call f args) ∨ ∃ a ∈ args.drop f.targets, a.Stops :=
  stops_iff

theorem not_stops_foldConstant (env : Environment) (name : String) :
    ¬ (foldConstant env name).Stops := by
  rw [foldConstant]
  split
  · split
    · exact not_stops_number _
    · exact not_stops_var name
  · exact not_stops_var name

/-- **A fold does not make a product that stops the program go away**, nor does it bring one in. -/
theorem stops_fold_iff {e : Expr} : (e.fold s).Stops ↔ e.Stops := by
  by_cases hready : e.isReady = true
  · rw [fold_of_isReady hready]
    cases hanswer : (e.eval s).1 with
    | error error => rfl
    | ok d =>
      -- the node comes to a literal, so neither it nor the literals in it stop the program
      refine iff_of_false (not_stops_number d) fun h => ?_
      obtain h | ⟨a, ha, h⟩ := stops_iff.mp h
      · rw [((stopsAt_iff e s).mp h).2] at hanswer
        cases hanswer
      · obtain ⟨x, rfl⟩ := exists_number_of_mem_parts hready ha
        exact not_stops_number x h
  · rw [fold_of_not_isReady hready]

/-! ## Simplification -/

theorem simplifyIn_call (f : Builtin) (args : List Expr) :
    simplifyIn (.call f args) = (do
      let args' ← simplifyAllIn (args.drop f.targets)
      foldIn (.call f (args.take f.targets ++ args'))) := by
  by_cases hf : f = .define
  · subst hf
    cases args with
    | nil =>
      rw [simplifyIn]
      · rfl
      · nofun
    | cons target args =>
      rw [simplifyIn]
      rfl
  · rw [simplifyIn, Builtin.targets_of_ne hf]
    · rfl
    · rintro target rest rfl
      exact absurd rfl hf

/-- **What asking for `e` is answered with**, where the program has to compute the products in
`e`. -/
structure Answers (e : Expr) (s : Session) (answer : Except EvalError Expr × Session) : Prop where
  of_stops : e.Stops → answer = (.error .stopped, s)
  of_not_stops : ¬ e.Stops → answer = (.ok e, s)

theorem Answers.stopped {e : Expr} (h : e.Stops) : Answers e s (.error .stopped, s) :=
  ⟨fun _ => rfl, fun hgoes => absurd h hgoes⟩

theorem Answers.ok {e : Expr} (h : ¬ e.Stops) : Answers e s (.ok e, s) :=
  ⟨fun hstops => absurd hstops h, fun _ => rfl⟩

/-- A fold whose parts do not stop the program is the last that may. -/
theorem answers_foldIn {e : Expr} (hparts : ∀ a ∈ e.parts, ¬ a.Stops) :
    Answers (e.fold s) s (e.foldIn s) := by
  by_cases h : StopsAt e
  · rw [foldIn_of_stopsAt h]
    exact .stopped (stops_fold_iff.mpr (stops_iff.mpr (.inl h)))
  · rw [foldIn_of_not_stopsAt h]
    refine .ok fun hstops => ?_
    obtain hwhole | ⟨a, ha, hstops⟩ := stops_iff.mp (stops_fold_iff.mp hstops)
    · exact h hwhole
    · exact hparts a ha hstops

/-- The program stops at a part before it comes to the node. -/
theorem Answers.of_part {e a : Expr} (ha : a ∈ e.parts) (h : a.Stops) :
    Answers (e.fold s) s (.error .stopped, s) :=
  .stopped (stops_fold_iff.mpr (stops_iff.mpr (.inr ⟨a, ha, h⟩)))

/-- What is asked for one after the other comes to the list of all, unless the program stops. -/
theorem simplifyAllIn_of_forall : ∀ {es : List Expr},
    (∀ e ∈ es, Answers (e.simplify s.env) s (e.simplifyIn s)) →
      ((∃ e ∈ es, (e.simplify s.env).Stops) → simplifyAllIn es s = (.error .stopped, s)) ∧
      ((∀ e ∈ es, ¬ (e.simplify s.env).Stops) →
        simplifyAllIn es s = (.ok (es.map (simplify s.env)), s))
  | [], _ => by
      rw [simplifyAllIn]
      exact ⟨fun ⟨_, he, _⟩ => absurd he List.not_mem_nil, fun _ => rfl⟩
  | e :: es, h => by
      obtain ⟨he, hes⟩ := List.forall_mem_cons.mp h
      obtain ⟨hstops, hgoes⟩ := simplifyAllIn_of_forall hes
      rw [simplifyAllIn, bind_apply]
      by_cases hfirst : (e.simplify s.env).Stops
      · rw [he.of_stops hfirst]
        exact ⟨fun _ => rfl, fun hnone => absurd hfirst (hnone e List.mem_cons_self)⟩
      · rw [he.of_not_stops hfirst]
        refine ⟨fun hsome => ?_, fun hnone => ?_⟩
        · obtain ⟨e', he', hstop⟩ := hsome
          obtain rfl | hrest := List.mem_cons.mp he'
          · exact absurd hstop hfirst
          · simp only [bind_apply, hstops ⟨e', hrest, hstop⟩]
        · simp only [bind_apply, hgoes (List.forall_mem_cons.mp hnone).2]
          rfl

/-- **Running the simplification of an expression is asking for the simplified expression.** -/
theorem answers_simplifyIn (e : Expr) (s : Session) :
    Answers (e.simplify s.env) s (e.simplifyIn s) := by
  -- every part leaves the session as it was, so the hypotheses for all parts are about the same one
  induction e using Expr.induction with
  | number d =>
    rw [simplify, simplifyIn]
    exact .ok (not_stops_number d)
  | var name =>
    rw [simplify, simplifyIn]
    exact .ok (not_stops_foldConstant s.env name)
  | unary op a iha =>
    rw [simplify, ← fold_unary, simplifyIn, bind_apply]
    by_cases ha : (a.simplify s.env).Stops
    · rw [iha.of_stops ha]
      exact .of_part (List.mem_singleton.mpr rfl) ha
    · rw [iha.of_not_stops ha]
      exact answers_foldIn (List.forall_mem_singleton.mpr ha)
  | binary op a b iha ihb =>
    rw [simplify, ← fold_binary, simplifyIn, bind_apply]
    by_cases ha : (a.simplify s.env).Stops
    · rw [iha.of_stops ha]
      exact .of_part List.mem_cons_self ha
    · rw [iha.of_not_stops ha]
      simp only [bind_apply]
      by_cases hb : (b.simplify s.env).Stops
      · rw [ihb.of_stops hb]
        exact .of_part (List.mem_cons_of_mem _ List.mem_cons_self) hb
      · rw [ihb.of_not_stops hb]
        exact answers_foldIn (List.forall_mem_cons.mpr ⟨ha, List.forall_mem_singleton.mpr hb⟩)
  | call f args ih =>
    obtain ⟨hstops, hgoes⟩ := simplifyAllIn_of_forall fun a (ha : a ∈ args.drop f.targets) =>
      ih a (List.mem_of_mem_drop ha)
    have hparts := parts_call_replaced f args (simplify s.env)
    rw [simplify_call_eq, ← fold_call, simplifyIn_call, bind_apply]
    by_cases h : ∃ a ∈ args.drop f.targets, (a.simplify s.env).Stops
    · rw [hstops h]
      obtain ⟨a, ha, h⟩ := h
      refine .of_part ?_ h
      rw [hparts]
      exact List.mem_map_of_mem ha
    · have hnone : ∀ a ∈ args.drop f.targets, ¬ (a.simplify s.env).Stops := by
        simpa only [not_exists, not_and] using h
      rw [hgoes hnone]
      refine answers_foldIn ?_
      rw [hparts]
      exact List.forall_mem_map.mpr hnone

/-- **A product that stops the program stops the simplification.** -/
theorem simplifyIn_of_stops {e : Expr} (h : (e.simplify s.env).Stops) :
    e.simplifyIn s = (.error .stopped, s) :=
  (answers_simplifyIn e s).of_stops h

/-- **Otherwise simplification has an answer**, and leaves the session as it was. -/
theorem simplifyIn_of_not_stops {e : Expr} (h : ¬ (e.simplify s.env).Stops) :
    e.simplifyIn s = (.ok (e.simplify s.env), s) :=
  (answers_simplifyIn e s).of_not_stops h

theorem simplifyAllIn_of_not_stops {es : List Expr} (h : ∀ e ∈ es, ¬ (e.simplify s.env).Stops) :
    simplifyAllIn es s = (.ok (es.map (simplify s.env)), s) :=
  (simplifyAllIn_of_forall fun e _ => answers_simplifyIn e s).2 h

theorem eq_simplify_of_simplifyIn {e e' : Expr} {s' : Session} (h : e.simplifyIn s = (.ok e', s')) :
    e' = e.simplify s.env := by
  by_cases hstops : (e.simplify s.env).Stops
  · rw [simplifyIn_of_stops hstops] at h
    cases h
  · rw [simplifyIn_of_not_stops hstops] at h
    cases h
    rfl

/-- What is simplified alike is answered alike. -/
theorem simplifyIn_congr {e : Expr} {s t : Session} (h : e.simplify s.env = e.simplify t.env) :
    (e.simplifyIn s).1 = (e.simplifyIn t).1 := by
  by_cases hstops : (e.simplify s.env).Stops
  · rw [simplifyIn_of_stops hstops, simplifyIn_of_stops (h ▸ hstops)]
  · rw [simplifyIn_of_not_stops hstops, simplifyIn_of_not_stops (h ▸ hstops), h]

/-- `sum(1, 1 + 1, pi * define(x, i))`: a series whose bound and body fold, and whose body assigns.
-/
def piTimesIndex : Expr :=
  .call .sum [.number .one, .binary .plus (.number .one) (.number .one),
    .binary .times (.var "pi") (.call .define [.var "x", .var "i"])]

/-- A session that starts with `x` bound to another variable. -/
def sessionWithAlias : Session :=
  ⟨(Environment.initial default).set "x" (.var "y"), mkStdGen 0⟩

/-- One times ten at the least scale there is. -/
def oneTimesTen : Expr :=
  .binary .times (.number .one) (.number ⟨10, -9223372036854775808⟩)

theorem stops_oneTimesTen : oneTimesTen.Stops :=
  ⟨_, .whole, by decide, by decide⟩

theorem simplify_oneTimesTen (c : Context) : oneTimesTen.simplify (.initial c) = oneTimesTen := by
  rfl

/-- `1 / 0 + …`, which fails before it comes to the product. -/
def quotientAndProduct : Expr :=
  .binary .plus (.binary .divide (.number .one) (.number .zero)) oneTimesTen

end Expr

end Abacus
