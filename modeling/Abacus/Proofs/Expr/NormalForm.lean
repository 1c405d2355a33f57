import Abacus.Proofs.Expr.Folding

/-!
# Proofs/Expr/NormalForm — simplification ends in a normal form

An expression is `Normal` in a session when nothing that occurs in it can be replaced by a literal.
What `simplify` gives is normal (`normal_simplify`) and what is normal it leaves alone
(`simplify_of_normal`); so simplifying twice is simplifying once.  Asked for in a session, the normal
form is what is answered and the session is as it was, unless a product in the normal form stops the
program.
-/

namespace Abacus.Expr

variable {s : Session}

/-! ## Normal forms -/

/-- **What simplification may replace by a literal**: a constant that is bound to one, and a node
whose parts are literals and which the evaluator has an answer for. -/
def Foldable (s : Session) : Expr → Prop
  | .var name => Environment.isConstant name = true ∧ ∃ d, s.env.get? name = some (.number d)
  | e => e.isReady = true ∧ ∃ d, (e.eval s).1 = .ok d

/-- **Nothing is left to be folded**, except in targets of assignments. -/
def Normal (s : Session) (e : Expr) : Prop :=
  ∀ part, OccursIn part e → ¬ Foldable s part

theorem normal_iff {e : Expr} : Normal s e ↔ ¬ Foldable s e ∧ ∀ a ∈ e.parts, Normal s a :=
  forall_occursIn_iff

theorem normal_number (d : Decimal) : Normal s (.number d) :=
  normal_iff.mpr ⟨fun h => Bool.false_ne_true h.1, List.forall_mem_nil _⟩

theorem foldable_iff {e : Expr} (he : ∀ name, e ≠ .var name) :
    Foldable s e ↔ e.isReady = true ∧ ∃ d, (e.eval s).1 = .ok d := by
  cases e with
  | var name => exact absurd rfl (he name)
  | _ => rfl

/-! ## Simplification and normal forms -/

/-- What can be folded becomes a literal. -/
theorem fold_of_foldable {e : Expr} (he : ∀ name, e ≠ .var name) (h : Foldable s e) :
    ∃ d, e.fold s = .number d := by
  obtain ⟨hready, d, hd⟩ := (foldable_iff he).mp h
  exact ⟨d, by rw [fold_of_isReady hready, hd, literalOr]⟩

/-- What cannot be folded stays. -/
theorem fold_of_not_foldable {e : Expr} (he : ∀ name, e ≠ .var name) (h : ¬ Foldable s e) :
    e.fold s = e := by
  by_cases hready : e.isReady = true
  · rw [fold_of_isReady hready]
    cases hanswer : (e.eval s).1 with
    | error error => rfl
    | ok d => exact absurd ((foldable_iff he).mpr ⟨hready, d, hanswer⟩) h
  · exact fold_of_not_isReady hready

/-- **A fold of a node with normal parts is normal.** -/
theorem normal_fold {e : Expr} (he : ∀ name, e ≠ .var name) (hparts : ∀ a ∈ e.parts, Normal s a) :
    Normal s (e.fold s) := by
  by_cases h : Foldable s e
  · obtain ⟨d, hd⟩ := fold_of_foldable he h
    rw [hd]
    exact normal_number d
  · rw [fold_of_not_foldable he h]
    exact normal_iff.mpr ⟨h, hparts⟩

theorem normal_foldConstant (s : Session) (name : String) :
    Normal s (foldConstant s.env name) := by
  rw [foldConstant]
  split
  · split
    · exact normal_number _
    · next hget =>
        exact normal_iff.mpr ⟨fun h => h.2.elim hget, List.forall_mem_nil _⟩
  · next hname => exact normal_iff.mpr ⟨fun h => hname h.1, List.forall_mem_nil _⟩

/-- **Simplification ends in a normal form.** -/
theorem normal_simplify (e : Expr) (s : Session) : Normal s (e.simplify s.env) := by
  induction e using Expr.induction with
  | number d =>
    rw [simplify]
    exact normal_number d
  | var name =>
    rw [simplify]
    exact normal_foldConstant s name
  | unary op a iha =>
    rw [simplify, ← fold_unary]
    exact normal_fold (by simp) (List.forall_mem_singleton.mpr iha)
  | binary op a b iha ihb =>
    rw [simplify, ← fold_binary]
    exact normal_fold (by simp)
      (List.forall_mem_cons.mpr ⟨iha, List.forall_mem_singleton.mpr ihb⟩)
  | call f args ih =>
    rw [simplify_call_eq, ← fold_call]
    refine normal_fold (by simp) ?_
    rw [parts_call_replaced]
    exact List.forall_mem_map.mpr fun a ha => ih a (List.mem_of_mem_drop ha)

theorem foldConstant_of_not_foldable {name : String} (h : ¬ Foldable s (.var name)) :
    foldConstant s.env name = .var name := by
  rw [foldConstant]
  split
  · next hname =>
      split
      · next d hd => exact absurd ⟨hname, d, hd⟩ h
      · rfl
  · rfl

/-- **Simplification leaves normal forms alone.** -/
theorem simplify_of_normal {e : Expr} {s : Session} : Normal s e → e.simplify s.env = e := by
  induction e using Expr.induction with
  | number d =>
    intro _
    rw [simplify]
  | var name =>
    intro h
    rw [simplify]
    exact foldConstant_of_not_foldable (normal_iff.mp h).1
  | unary op a iha =>
    intro h
    obtain ⟨hwhole, hparts⟩ := normal_iff.mp h
    rw [simplify, iha (hparts a (by simp [parts])), ← fold_unary (s := s)]
    exact fold_of_not_foldable (by simp) hwhole
  | binary op a b iha ihb =>
    intro h
    obtain ⟨hwhole, hparts⟩ := normal_iff.mp h
    rw [simplify, iha (hparts a (by simp [parts])), ihb (hparts b (by simp [parts])), ← fold_binary]
    exact fold_of_not_foldable (by simp) hwhole
  | call f args ih =>
    intro h
    obtain ⟨hwhole, hparts⟩ := normal_iff.mp h
    have hsame : (args.drop f.targets).map (simplify s.env) = args.drop f.targets :=
      (List.map_congr_left fun a ha => ih a (List.mem_of_mem_drop ha) (hparts a ha)).trans
        (List.map_id _)
    rw [simplify_call_eq, hsame, List.take_append_drop, ← fold_call]
    exact fold_of_not_foldable (by simp) hwhole

/-- **A second run is answered with the same.** -/
theorem simplifyIn_simplify {e : Expr} (h : ¬ (e.simplify s.env).Stops) :
    (e.simplify s.env).simplifyIn s = (.ok (e.simplify s.env), s) := by
  have hsame := simplify_of_normal (normal_simplify e s)
  have hagain := simplifyIn_of_not_stops (e := e.simplify s.env) (s := s) (by rwa [hsame])
  rwa [hsame] at hagain

/-- `define(pi, 1 / (1 - 1))`. -/
def piAsQuotient : Expr :=
  .call .define [.var "pi", .binary .divide (.number .one)
    (.binary .minus (.number .one) (.number .one))]

end Abacus.Expr
