import Abacus.Proofs.Evaluation.Failure
import Abacus.Proofs.Evaluation.Rules
import Mathlib.Data.Finset.Card

/-!
# Proofs/Evaluation/Termination — evaluation ends where variables can be ranked

Bindings may refer to other variables, and these to others again.  If variables can be ranked such
that a binding mentions only variables that rank below the one that it is for, this comes to an end.
Evaluation changes bindings on the way, but it adds literals only: a binding that has to be followed
is one that was there at the start.  The number of variables bound at the start that rank below a
variable, its `height`, thus bounds how deep bindings are nested under it, and falls at every step
into a binding (`height_lt_height`).

So evaluation never gives up there, and by the rules of evaluation this means that it comes to an
end (`evaluates_iff_eval_of_ranked`).
-/

universe u

namespace Abacus

open Evaluation

/-! ## Rankings -/

namespace Environment

variable {α : Type u} [Preorder α] {rank : String → α} {env : Environment} {name other : String}
  {e : Expr}

/-- **Variables are ranked**: those that occur in a binding rank below the one that it is for. -/
def Ranked (rank : String → α) (env : Environment) : Prop :=
  env.Binds fun name e => ∀ other ∈ e.vars, rank other < rank name

/-- Every ranking is one of an environment that binds literals only. -/
theorem LiteralsOnly.ranked (h : env.LiteralsOnly) : env.Ranked rank := by
  intro name e he other hother
  obtain ⟨d, rfl⟩ := h name e he
  cases hother

/-- Evaluation keeps a ranking. -/
theorem invariant_ranked (rank : String → α) :
    Invariant fun s : Session => s.env.Ranked rank :=
  invariant_binds fun _ _ _ hother => nomatch hother

open Classical in
/-- The bound variables that rank below a variable. -/
noncomputable def below (rank : String → α) (env : Environment) (name : String) : Finset String :=
  env.bindings.names.toFinset.filter fun other => rank other < rank name

theorem mem_below : other ∈ env.below rank name ↔
    other ∈ env.bindings.names ∧ rank other < rank name := by
  classical
  rw [below, Finset.mem_filter, List.mem_toFinset]

/-- How many of the bound variables rank below a variable. -/
noncomputable def height (rank : String → α) (env : Environment) (name : String) : Nat :=
  (env.below rank name).card

/-- **A binding leads to variables of smaller height**, as far as they are bound. -/
theorem height_lt_height (hother : env.get? other = some e) (hrank : rank other < rank name) :
    env.height rank other < env.height rank name := by
  refine Finset.card_lt_card ((Finset.ssubset_iff_of_subset ?_).mpr ⟨other, ?_, ?_⟩)
  · intro lower hlower
    obtain ⟨hbound, hlt⟩ := mem_below.mp hlower
    exact mem_below.mpr ⟨hbound, hlt.trans hrank⟩
  · exact mem_below.mpr ⟨Bindings.mem_names_of_get? hother, hrank⟩
  · exact fun hself => lt_irrefl _ (mem_below.mp hself).2

theorem height_lt_length (hname : env.get? name = some e) :
    env.height rank name < env.bindings.length := by
  have hssubset : env.below rank name ⊂ env.bindings.names.toFinset := by
    refine (Finset.ssubset_iff_of_subset ?_).mpr ⟨name, ?_, ?_⟩
    · exact fun lower hlower => List.mem_toFinset.mpr (mem_below.mp hlower).1
    · exact List.mem_toFinset.mpr (Bindings.mem_names_of_get? hname)
    · exact fun hself => lt_irrefl _ (mem_below.mp hself).2
  calc env.height rank name
      < env.bindings.names.toFinset.card := Finset.card_lt_card hssubset
    _ ≤ env.bindings.names.length := List.toFinset_card_le _
    _ = env.bindings.length := List.length_map _

/-- What variables are bound to is a literal, or what they are bound to in `start`. -/
def StemsFrom (start env : Environment) : Prop :=
  env.Binds fun name e => (∃ d, e = .number d) ∨ start.get? name = some e

theorem invariant_stemsFrom (start : Environment) :
    Invariant fun s : Session => StemsFrom start s.env :=
  invariant_binds fun _ d => .inl ⟨d, rfl⟩

end Environment

/-! ## Evaluation -/

/-- A failure that is not for want of depth. -/
def EvalError.NotCircular (error : EvalError) : Prop :=
  ∀ name, error ≠ .circularBinding name

namespace Expr

variable {α : Type u} [Preorder α] {rank : String → α} {start : Environment}
  {follow : String → Expr → Evaluation Decimal}

/-- An expression does not give up if following the bindings of its variables does not. -/
theorem notCircular_evalWith {e : Expr}
    (hkeeps : ∀ name e, Keeps (fun s => start.StemsFrom s.env) (follow name e))
    (hfollow : ∀ name ∈ e.vars, ∀ bound, start.get? name = some bound →
      FailsOnly (fun s => start.StemsFrom s.env) EvalError.NotCircular (follow name bound)) :
    FailsOnly (fun s => start.StemsFrom s.env) EvalError.NotCircular (evalWith follow e) := by
  refine failsOnly_evalWith (Environment.invariant_stemsFrom start) hkeeps ?_ ?_ ?_
  · rintro _ hvalues name rfl
    exact hvalues
  · rintro _ hfault name rfl
    exact ofShape_of_mem_faults hfault
  · intro name hname s bound hs hget hbound
    -- whatever was bound on the way is a literal, and those are not followed
    obtain ⟨d, rfl⟩ | hstart := hs name bound hget
    · exact absurd rfl (hbound d)
    · exact hfollow name hname bound hstart s hs

/-- **Evaluation does not give up** if it may follow bindings as deep as the variables of the
expression are high. -/
theorem notCircular_evalWithin (h : start.Ranked rank) (n : Nat) : ∀ e : Expr,
    (∀ name ∈ e.vars, ∀ bound, start.get? name = some bound → start.height rank name < n) →
      FailsOnly (fun s => start.StemsFrom s.env) EvalError.NotCircular (evalWithin n e) := by
  induction n with
  | zero =>
    intro e hheight
    refine notCircular_evalWith (fun _ _ => Keeps.fail _) fun name hname bound hbound => ?_
    exact absurd (hheight name hname bound hbound) (Nat.not_lt_zero _)
  | succ n ih =>
    intro e hheight
    refine notCircular_evalWith
      (fun _ e => keeps_evalWithin (Environment.invariant_stemsFrom start) n e)
      fun name hname bound hbound => ih bound fun other hother bound' hbound' => ?_
    have hlt : start.height rank other < start.height rank name :=
      Environment.height_lt_height hbound' (h name bound hbound other hother)
    exact hlt.trans_le (Nat.le_of_lt_succ (hheight name hname bound hbound))

/-- **Evaluation comes to an end where variables can be ranked** so that those that occur in a
binding rank below the one that it is for; in particular where all bindings are literals.  The rules
of evaluation, which know no bound on how deep bindings are nested and just go round in series, then
give the expression one answer, which is the one of `eval`, and evaluation leaves a session in which
variables are ranked still. -/
theorem evaluates_iff_eval_of_ranked (rank : String → α) (s : Session) (e : Expr) :
    (s.env.LiteralsOnly → s.env.Ranked rank) ∧
    (s.env.Ranked rank →
      (∀ answer t, Evaluates (.value e) s answer t ↔ e.eval s = (answer, t)) ∧
      (∀ name, (e.eval s).1 ≠ .error (.circularBinding name)) ∧
      (e.eval s).2.env.Ranked rank) := by
  refine ⟨Environment.LiteralsOnly.ranked, fun h => ?_⟩
  have hends : FailsWith EvalError.NotCircular (e.eval s).1 := by
    refine notCircular_evalWithin h _ e (fun name _ bound hbound => ?_) s fun _ _ => .inr
    exact (Environment.height_lt_length hbound).trans_le (Nat.le_add_left _ _)
  have hcircular : ∀ name, (e.eval s).1 ≠ .error (.circularBinding name) :=
    fun name => hends.ne_error fun h => h name rfl
  exact ⟨fun _ _ => Evaluates.iff_evalWithin hcircular, hcircular,
    keeps_eval (Environment.invariant_ranked rank) e s h⟩

/-- `define(side, 1) + total`. -/
def shrunkTotal : Expr :=
  .binary .plus (.call .define [.var "side", .number .one]) (.var "total")

/-- A session that starts with `area` bound to `side * side`, and `total` to `sum(1, area, i)`. -/
def sessionWithFormulas : Session :=
  ⟨(((Environment.initial default).set "side" (.number ⟨2, 0⟩)).set "area"
    (.binary .times (.var "side") (.var "side"))).set "total"
    (.call .sum [.number .one, .var "area", .var "i"]), mkStdGen 0⟩

/-- The formulas rank above what they are made of. -/
def formulaRank (name : String) : Nat :=
  if name = "total" then 2 else if name = "area" then 1 else 0

theorem evaluates_iff_eval_of_ranked_formulas :
    sessionWithFormulas.env.Ranked formulaRank ∧
    (shrunkTotal.eval sessionWithFormulas).1 = .ok ⟨2, 0⟩ ∧
    (shrunkTotal.eval sessionWithFormulas).2.env.Ranked formulaRank := by
  have hranked : sessionWithFormulas.env.Ranked formulaRank := by
    refine (Environment.Binds.set (.set (.set (Environment.binds_initial ?_ default) ?_) ?_) ?_)
    · exact fun _ _ _ hother => nomatch hother
    · exact fun _ hother => nomatch hother
    · decide
    · decide
  obtain ⟨hiff, -, hafter⟩ :=
    (evaluates_iff_eval_of_ranked formulaRank sessionWithFormulas shrunkTotal).2 hranked
  refine ⟨hranked, ?_, hafter⟩
  have hside : ∀ s : Session, s.env.get? "side" = some (.number .one) →
      Evaluates (.value (.var "side")) s (.ok .one) s := fun s hs => .bound hs (.number _ s)
  have hindex : ∀ s index, Evaluates (.value (.var "i")) (Series.withIndex s index) (.ok index)
      (Series.withIndex s index) := fun s index =>
    .bound (s.env.get?_set_self _ _) (.number _ _)
  have hderived := (hiff _ _).mp (.binary .plus (.define rfl (.number _ _)) (.bound rfl
    (.series rfl (.number _ _) (.bound rfl (.binary .times (hside _ rfl) (hside _ rfl)))
      (by decide) (.next (by decide) (hindex _ _) rfl (.done (by decide))))))
  rw [hderived]
  rfl

end Expr

end Abacus
