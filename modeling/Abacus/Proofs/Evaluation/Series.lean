import Abacus.Proofs.Decimal.Arithmetic
import Abacus.Proofs.Evaluation.Trace
import Mathlib.Algebra.BigOperators.Group.List.Basic
import Mathlib.Data.List.Iterate

/-!
# Proofs/Evaluation/Series — a series takes in the terms of its indices, one after another

The indices of a series are its lower bound, that and one, and so on, and there are
`⌊upper - lower⌋ + 1` of them (`length_indices`, `toRat_indices`).  `Terms` evaluates a term for
each of some indices: each time in the session that the time before left, with nothing but the index
bound anew.  The loop of a series does just this, and ends with the total of the values, with the
first term that fails, or with the first value that the total cannot take in (`run_outcome`).

The totals are those of the exact values.  A sum takes in everything.  A product does as long as the
scales of the partial products fit in 64 bits (`PartialScalesFit`); at the first one that does not
the program stops (`ProductStops`).
-/

namespace Abacus

open Evaluation

/-! ## Indices -/

namespace Series

variable {index lower upper : Decimal}

theorem remaining_eq_zero (h : ¬ index.atMost upper = true) : remaining index upper = 0 := by
  have hlt : (upper.toRat - index.toRat).floor < 0 := by
    refine Int.not_le.mp fun hle => h (Decimal.atMost_iff.mpr ?_)
    exact sub_nonneg.mp (by exact_mod_cast Rat.le_floor_iff.mp hle)
  rw [remaining]
  omega

/-- **The indices of a series**, in order. -/
def indices (lower upper : Decimal) : List Decimal :=
  List.iterate Decimal.next lower (remaining lower upper)

theorem indices_of_atMost (h : index.atMost upper = true) :
    indices index upper = index :: indices index.next upper := by
  rw [indices, remaining_eq_succ h]
  rfl

theorem indices_of_not (h : ¬ index.atMost upper = true) : indices index upper = [] := by
  rw [indices, remaining_eq_zero h]
  rfl

theorem length_indices (h : lower.toRat ≤ upper.toRat) :
    ((indices lower upper).length : ℤ) = ⌊upper.toRat - lower.toRat⌋ + 1 := by
  have hle : 0 ≤ ⌊upper.toRat - lower.toRat⌋ := Int.floor_nonneg.mpr (sub_nonneg.mpr h)
  rw [indices, List.length_iterate]
  exact Int.toNat_of_nonneg (Int.add_nonneg hle zero_le_one)

theorem toRat_iterate_next (k : ℕ) (d : Decimal) :
    (Decimal.next^[k] d).toRat = d.toRat + k := by
  induction k generalizing d with
  | zero => simp
  | succ k ih =>
    rw [Function.iterate_succ_apply, ih, Decimal.toRat_next]
    push_cast
    ring

/-- **The index after `k` others** is greater by `k`. -/
theorem toRat_indices {k : ℕ} (h : (indices lower upper)[k]? = some index) :
    index.toRat = lower.toRat + k := by
  obtain ⟨hk, rfl⟩ := List.getElem?_eq_some_iff.mp h
  simp only [indices, List.getElem_iterate]
  exact toRat_iterate_next k lower

/-! ## Terms -/

/-- **Terms one after another**: the term is evaluated for each of some indices, each time in the
session that the time before left with the index bound anew, and has these values. -/
inductive Terms (term : Evaluation Decimal) :
    List Decimal → Session → List Decimal → Session → Prop where
  | none (s : Session) : Terms term [] s [] s
  | next {index x : Decimal} {indices xs : List Decimal} {s t u : Session}
      (hterm : term (withIndex s index) = (.ok x, t)) (hrest : Terms term indices t xs u) :
      Terms term (index :: indices) s (x :: xs) u

/-- **The first term that fails**: those of the indices before it have values. -/
def TermFails (term : Evaluation Decimal) (indices : List Decimal) (s : Session)
    (error : EvalError) (u : Session) : Prop :=
  ∃ before index after xs t, indices = before ++ index :: after ∧ Terms term before s xs t ∧
    term (withIndex t index) = (.error error, u)

variable {term : Evaluation Decimal}

theorem TermFails.next {index x : Decimal} {indices : List Decimal} {s t u : Session}
    {error : EvalError} (hterm : term (withIndex s index) = (.ok x, t))
    (h : TermFails term indices t error u) : TermFails term (index :: indices) s error u := by
  obtain ⟨before, index', after, xs, t', rfl, hterms, hfails⟩ := h
  exact ⟨index :: before, index', after, x :: xs, t', rfl, .next hterm hterms, hfails⟩

/-- **The first value that the total cannot take in**: it takes in those of the indices before. -/
def TotalFails (kind : Series) (term : Evaluation Decimal) (indices : List Decimal)
    (total : Decimal) (s : Session) (error : EvalError) (u : Session) : Prop :=
  ∃ before index after xs x t total', indices = before ++ index :: after ∧ Terms term before s xs t ∧
    xs.foldlM kind.combine total = .ok total' ∧ term (withIndex t index) = (.ok x, u) ∧
    kind.combine total' x = .error error

theorem TotalFails.next {kind : Series} {index x total total' : Decimal} {indices : List Decimal}
    {s t u : Session} {error : EvalError} (hterm : term (withIndex s index) = (.ok x, t))
    (htotal : kind.combine total x = .ok total')
    (h : TotalFails kind term indices total' t error u) :
    TotalFails kind term (index :: indices) total s error u := by
  obtain ⟨before, index', after, xs, x', t', total'', rfl, hterms, hxs, hterm', hfails⟩ := h
  refine ⟨index :: before, index', after, x :: xs, x', t', total'', rfl, .next hterm hterms, ?_,
    hterm', hfails⟩
  rw [List.foldlM_cons, htotal]
  exact hxs

/-- **What the loop of a series comes to**: the total of all terms, or the failure of the first one
that fails, or of the first total. -/
theorem run_outcome (kind : Series) (term : Evaluation Decimal) (upper index total : Decimal)
    (s : Session) :
    (∃ xs t total', Terms term (indices index upper) s xs t ∧
      xs.foldlM kind.combine total = .ok total' ∧
      kind.run term upper index total s = (.ok total', t)) ∨
    (∃ error u, (TermFails term (indices index upper) s error u ∨
        TotalFails kind term (indices index upper) total s error u) ∧
      kind.run term upper index total s = (.error error, u)) := by
  refine rounds (P := fun index total s =>
    (∃ xs t total', Terms term (indices index upper) s xs t ∧
      xs.foldlM kind.combine total = .ok total' ∧
      kind.run term upper index total s = (.ok total', t)) ∨
    (∃ error u, (TermFails term (indices index upper) s error u ∨
        TotalFails kind term (indices index upper) total s error u) ∧
      kind.run term upper index total s = (.error error, u))) kind term upper ?_ ?_ ?_ ?_
    index total s
  · intro index total s h
    rw [indices_of_not h, run_of_not h]
    exact .inl ⟨[], s, total, .none s, rfl, rfl⟩
  · intro index total s error u h hterm
    rw [indices_of_atMost h, run_of_error h hterm]
    exact .inr ⟨error, u, .inl ⟨[], index, _, [], s, rfl, .none s, hterm⟩, rfl⟩
  · intro index total s x error u h hterm htotal
    rw [indices_of_atMost h, run_of_stop h hterm htotal]
    exact .inr ⟨error, u, .inr ⟨[], index, _, [], x, s, total, rfl, .none s, rfl, hterm, htotal⟩,
      rfl⟩
  · intro index total s x total' t h hterm htotal ih
    rw [indices_of_atMost h, run_of_ok h hterm htotal]
    obtain ⟨xs, u, total'', hterms, hxs, hrun⟩ | ⟨error, u, hfails, hrun⟩ := ih
    · refine .inl ⟨x :: xs, u, total'', .next hterm hterms, ?_, hrun⟩
      rw [List.foldlM_cons, htotal]
      exact hxs
    · exact .inr ⟨error, u, hfails.imp (.next hterm) (.next hterm htotal), hrun⟩

/-! ## Totals -/

/-- **A sum takes in everything**, and its total is exact. -/
theorem foldlM_sum (xs : List Decimal) (total : Decimal) :
    ∃ total', xs.foldlM Series.sum.combine total = .ok total' ∧
      total'.toRat = total.toRat + (xs.map Decimal.toRat).sum := by
  induction xs generalizing total with
  | nil => exact ⟨total, rfl, by simp⟩
  | cons x xs ih =>
    obtain ⟨total', hxs, hvalue⟩ := ih (total.addAligned x)
    refine ⟨total', hxs, ?_⟩
    rw [hvalue, Decimal.toRat_addAligned, List.map_cons, List.sum_cons, add_assoc]

/-- **The scale of every partial product fits in 64 bits**, from a total on. -/
def PartialScalesFit : Decimal → List Decimal → Prop
  | _, [] => True
  | total, x :: xs =>
    Decimal.ScaleFits (total.mulPlain x).scale ∧ PartialScalesFit (total.mulPlain x) xs

/-- **A product takes in what its scale can follow**, and its total is exact. -/
theorem foldlM_product_eq_ok_iff : ∀ {xs : List Decimal} {total total' : Decimal},
    xs.foldlM Series.product.combine total = .ok total' ↔
      PartialScalesFit total xs ∧ total' = xs.foldl Decimal.mulPlain total
  | [], total, total' => by
    rw [List.foldlM_nil, PartialScalesFit, true_and]
    exact Except.ok.injEq total total' ▸ eq_comm
  | x :: xs, total, total' => by
    rw [List.foldlM_cons, PartialScalesFit, combine]
    by_cases h : Decimal.ScaleFits (total.mulPlain x).scale
    · rw [Decimal.stored_eq_ok h, and_assoc, and_iff_right h]
      exact foldlM_product_eq_ok_iff
    · rw [Decimal.stored_eq_stopped h]
      exact iff_of_false nofun fun hfits => h hfits.1.1

theorem toRat_foldl_product : ∀ (xs : List Decimal) (total : Decimal),
    (xs.foldl Decimal.mulPlain total).toRat = total.toRat * (xs.map Decimal.toRat).prod
  | [], total => by simp
  | x :: xs, total => by
    rw [List.foldl_cons, toRat_foldl_product, Decimal.toRat_mulPlain, List.map_cons, List.prod_cons,
      mul_assoc]

theorem partialScalesFit_append : ∀ {xs ys : List Decimal} {total : Decimal},
    PartialScalesFit total (xs ++ ys) ↔
      PartialScalesFit total xs ∧ PartialScalesFit (xs.foldl Decimal.mulPlain total) ys
  | [], _, _ => (and_iff_right trivial).symm
  | _ :: _, _, _ => (and_congr_right fun _ => partialScalesFit_append).trans and_assoc.symm

/-- **The first partial product whose scale does not fit**: the terms of the indices before have
values whose partial products do, and the term of this one has a value whose product does not. -/
def ProductStops (term : Evaluation Decimal) (indices : List Decimal) (s u : Session) : Prop :=
  ∃ before index after xs x t, indices = before ++ index :: after ∧ Terms term before s xs t ∧
    term (withIndex t index) = (.ok x, u) ∧ PartialScalesFit .one xs ∧
    ¬ PartialScalesFit .one (xs ++ [x])

/-- A sum takes in everything. -/
theorem not_totalFails_sum {indices : List Decimal} {total : Decimal} {s u : Session}
    {error : EvalError} : ¬ TotalFails .sum term indices total s error u := by
  rintro ⟨_, _, _, _, _, _, _, -, -, -, -, hfails⟩
  cases hfails

/-- **A product cannot take in a value only because of its scale.** -/
theorem productStops_of_totalFails {indices : List Decimal} {s u : Session} {error : EvalError}
    (h : TotalFails .product term indices .one s error u) :
    error = .stopped ∧ ProductStops term indices s u := by
  obtain ⟨before, index, after, xs, x, t, total, rfl, hterms, hxs, hterm, hfails⟩ := h
  obtain ⟨hfits, rfl⟩ := foldlM_product_eq_ok_iff.mp hxs
  have hscale : ¬ Decimal.ScaleFits ((xs.foldl Decimal.mulPlain .one).mulPlain x).scale := by
    intro hscale
    rw [combine, Decimal.stored_eq_ok hscale] at hfails
    cases hfails
  rw [combine, Decimal.stored_eq_stopped hscale] at hfails
  refine ⟨(Except.error.inj hfails).symm, before, index, after, xs, x, t, rfl, hterms, hterm, hfits,
    fun hall => hscale ?_⟩
  exact (partialScalesFit_append.mp hall).2.1

/-- **A series between its bounds**: too small an upper bound is refused, and otherwise the terms of
all indices are taken in, up to the first one that fails or that the total cannot take in. -/
theorem evaluate_outcome (kind : Series) (lower upper : Decimal) (term : Evaluation Decimal)
    (s : Session) :
    (upper.toRat < lower.toRat →
      kind.evaluate lower upper term s = (.error (.invalidBounds lower upper), s)) ∧
    (lower.toRat ≤ upper.toRat →
      (∃ xs t total, Terms term (indices lower upper) s xs t ∧
        xs.foldlM kind.combine kind.identity = .ok total ∧
        kind.evaluate lower upper term s = (.ok total,
          { t with env := t.env.restore indexName (s.env.get? indexName) })) ∨
      (∃ error u, (TermFails term (indices lower upper) s error u ∨
          TotalFails kind term (indices lower upper) kind.identity s error u) ∧
        kind.evaluate lower upper term s = (.error error,
          { u with env := u.env.restore indexName (s.env.get? indexName) }))) := by
  refine ⟨fun h => ?_, fun h => ?_⟩
  · rw [evaluate, if_neg (mt Decimal.atMost_iff.mp (not_le.mpr h))]
    rfl
  · rw [evaluate, if_pos (Decimal.atMost_iff.mpr h)]
    simp only [keeping]
    obtain ⟨xs, t, total, hterms, hxs, hrun⟩ | ⟨error, u, hfails, hrun⟩ :=
      run_outcome kind term upper lower kind.identity s
    · exact .inl ⟨xs, t, total, hterms, hxs, by rw [hrun]⟩
    · exact .inr ⟨error, u, hfails, by rw [hrun]⟩

theorem rule_function (kind : Series) : kind.function.rule = .series kind := by
  cases kind <;> rfl

end Series

namespace Expr

open Series

/-- **What a series does, once its bounds have values.**  If the lower one is greater it is refused,
whatever its term.  Otherwise the term is evaluated for each of `⌊y - x⌋ + 1` indices, the `k`-th of
which is `x + k`, in order, each time in the session that the time before left.  The first term that
fails ends it with its error; if none does, the answer is the exact sum of their values, or their
exact product.  But the scales of all partial products have to fit in 64 bits: at the first one that
does not, the program stops. -/
theorem evalWithin_series_terms {n : ℕ} (kind : Series) {lower upper : Expr} (term : Expr)
    {x y : Decimal} {s s₁ s₂ : Session} (hlower : evalWithin n lower s = (.ok x, s₁))
    (hupper : evalWithin n upper s₁ = (.ok y, s₂)) :
    (y.toRat < x.toRat → evalWithin n (.call kind.function [lower, upper, term]) s =
      (.error (.invalidBounds x y), s₂)) ∧
    (x.toRat ≤ y.toRat →
      ((indices x y).length : ℤ) = ⌊y.toRat - x.toRat⌋ + 1 ∧
      (∀ (k : ℕ) index, (indices x y)[k]? = some index → index.toRat = x.toRat + k) ∧
      ((∃ xs t total, Terms (evalWithin n term) (indices x y) s₂ xs t ∧
          evalWithin n (.call kind.function [lower, upper, term]) s = (.ok total,
            { t with env := t.env.restore indexName (s₂.env.get? indexName) }) ∧
          match kind with
          | .sum => total.toRat = (xs.map Decimal.toRat).sum
          | .product => PartialScalesFit .one xs ∧ total.toRat = (xs.map Decimal.toRat).prod) ∨
        (∃ error u, TermFails (evalWithin n term) (indices x y) s₂ error u ∧
          evalWithin n (.call kind.function [lower, upper, term]) s = (.error error,
            { u with env := u.env.restore indexName (s₂.env.get? indexName) })) ∨
        (kind = .product ∧ ∃ u, ProductStops (evalWithin n term) (indices x y) s₂ u ∧
          evalWithin n (.call kind.function [lower, upper, term]) s = (.error .stopped,
            { u with env := u.env.restore indexName (s₂.env.get? indexName) })))) := by
  rw [evalWithin_series kind.rule_function term hlower hupper]
  obtain ⟨hrefused, hterms⟩ := evaluate_outcome kind x y (evalWithin n term) s₂
  refine ⟨hrefused, fun hle => ⟨length_indices hle, fun k index => toRat_indices, ?_⟩⟩
  obtain ⟨xs, t, total, hxs, htotal, hresult⟩ | ⟨error, u, hfails | hfails, hresult⟩ := hterms hle
  · refine .inl ⟨xs, t, total, hxs, hresult, ?_⟩
    cases kind with
    | sum =>
      obtain ⟨total', htotal', hvalue⟩ := foldlM_sum xs .zero
      obtain rfl : total' = total := Except.ok.inj (htotal'.symm.trans htotal)
      rw [hvalue, Decimal.zero, Decimal.toRat_ofInt, Int.cast_zero, zero_add]
    | product =>
      obtain ⟨hfits, rfl⟩ := foldlM_product_eq_ok_iff.mp htotal
      refine ⟨hfits, ?_⟩
      rw [toRat_foldl_product, identity, Decimal.toRat_one, one_mul]
  · exact .inr (.inl ⟨error, u, hfails, hresult⟩)
  · cases kind with
    | sum => exact absurd hfails not_totalFails_sum
    | product =>
      obtain ⟨rfl, hstops⟩ := productStops_of_totalFails hfails
      exact .inr (.inr ⟨rfl, u, hstops, hresult⟩)

/-- `sum(0.5, 3, i)`. -/
def sumOfHalves : Expr :=
  .call .sum [.number ⟨5, 1⟩, .number ⟨3, 0⟩, .var "i"]

/-- `product(3, 0.5, i)`. -/
def productDownwards : Expr :=
  .call .product [.number ⟨3, 0⟩, .number ⟨5, 1⟩, .var "i"]

/-- Between 0.5 and 3 there are three terms to sum, and between 3 and 0.5 none to multiply. -/
theorem evalWithin_series_terms_halves :
    ((indices ⟨5, 1⟩ ⟨3, 0⟩).length : ℤ) = 3 ∧
    (∃ xs t total,
      Terms (evalWithin 0 (.var "i")) (indices ⟨5, 1⟩ ⟨3, 0⟩) (.initial default (mkStdGen 0)) xs t ∧
      (evalWithin 0 sumOfHalves (.initial default (mkStdGen 0))).1 = .ok total ∧
      total.toRat = (xs.map Decimal.toRat).sum) ∧
    evalWithin 0 productDownwards (.initial default (mkStdGen 0)) =
      (.error (.invalidBounds ⟨3, 0⟩ ⟨5, 1⟩), .initial default (mkStdGen 0)) := by
  have hlt : Decimal.toRat ⟨5, 1⟩ < Decimal.toRat ⟨3, 0⟩ := Decimal.compare_eq_lt.mp (by decide)
  have hcount : ⌊Decimal.toRat ⟨3, 0⟩ - Decimal.toRat ⟨5, 1⟩⌋ + 1 = 3 := by
    norm_num [Decimal.toRat, Decimal.unit_eq_zpow]
  have hvalue : ∀ t index, evalWithin 0 (.var "i") (withIndex t index) =
      (.ok index, withIndex t index) := fun t index =>
    evalWith_var_literal (t.env.get?_set_self indexName _)
  have hdown := evalWithin_series_terms .product (.var "i")
    (evalWithin_number 0 ⟨3, 0⟩ (.initial default (mkStdGen 0))) (evalWithin_number 0 ⟨5, 1⟩ _)
  have hup := evalWithin_series_terms .sum (.var "i")
    (evalWithin_number 0 ⟨5, 1⟩ (.initial default (mkStdGen 0))) (evalWithin_number 0 ⟨3, 0⟩ _)
  obtain ⟨hlength, -, ⟨xs, t, total, hterms, hresult, htotal⟩ | ⟨error, u, hfails, -⟩ |
    ⟨hproduct, -⟩⟩ := hup.2 hlt.le
  · exact ⟨hlength.trans hcount, ⟨xs, t, total, hterms, congrArg Prod.fst hresult, htotal⟩,
      hdown.1 hlt⟩
  · obtain ⟨before, index, after, xs, t, -, -, hfails⟩ := hfails
    rw [hvalue] at hfails
    cases hfails
  · cases hproduct

end Expr

end Abacus
