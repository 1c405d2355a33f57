import Abacus.Proofs.Evaluation.Series

/-!
# Proofs/Evaluation/Product — a product is exact, or the program stops

A product operator refuses a scale that does not fit in 64 bits.  The running product of a series
multiplies without looking, and the program stops there.  What that means for terms that all have
values is read off the outcome of the loop, because the terms of some indices are those of the first
ones and then those of the others (`Terms.split`): either all partial products have scales that fit,
and the answer is the exact product, or the first one that has not ends the run, and no later term
is looked at (`evaluate_product`).

So a product never is another number than the exact one; but it is no error either where its scale
leaves 64 bits, which is `not_product_exact_or_refused`.
-/

namespace Abacus

open Evaluation

namespace Series

open Decimal (ScaleFits)

variable {term : Evaluation Decimal} {list front back xs ys : List Decimal} {s t u : Session}

/-! ## Terms that all have values -/

/-- **The terms of the first indices come first**, and then those of the others. -/
theorem Terms.split (hfront : Terms term front s ys u) (h : Terms term (front ++ back) s xs t) :
    ∃ zs, xs = ys ++ zs ∧ Terms term back u zs t := by
  induction hfront generalizing xs with
  | none s => exact ⟨xs, rfl, h⟩
  | next hterm _ ih =>
    cases h with
    | next hterm' hrest =>
      obtain ⟨hx, rfl⟩ := Prod.mk.inj (hterm.symm.trans hterm')
      cases hx
      obtain ⟨zs, rfl, hback⟩ := ih hrest
      exact ⟨zs, rfl, hback⟩

theorem Terms.unique (h : Terms term list s xs t) (h' : Terms term list s ys u) :
    ys = xs ∧ u = t := by
  rw [← List.append_nil list] at h'
  obtain ⟨zs, rfl, hnone⟩ := h.split h'
  cases hnone
  exact ⟨List.append_nil xs, rfl⟩

/-- Where all terms have values none fails. -/
theorem Terms.not_termFails {error : EvalError} (h : Terms term list s xs t) :
    ¬ TermFails term list s error u := by
  rintro ⟨before, index, after, ys, t', rfl, hbefore, hfails⟩
  obtain ⟨zs, rfl, hrest⟩ := hbefore.split h
  cases hrest with
  | next hterm _ => cases hfails.symm.trans hterm

/-- A product that stops has a partial product whose scale does not fit. -/
theorem ProductStops.not_partialScalesFit (hstops : ProductStops term list s u)
    (h : Terms term list s xs t) : ¬ PartialScalesFit .one xs := by
  obtain ⟨before, index, after, ys, x, t', rfl, hbefore, hterm, -, hunfit⟩ := hstops
  obtain ⟨zs, rfl, hrest⟩ := hbefore.split h
  cases hrest with
  | @next _ _ _ zs _ _ _ hterm' _ =>
    cases hterm.symm.trans hterm'
    rw [← List.singleton_append, ← List.append_assoc, partialScalesFit_append]
    exact fun hfits => hunfit hfits.1

/-- **A product of terms that all have values**: exact as long as the scales of the partial products
fit, and else the end of the program at the first one that does not. -/
theorem evaluate_product {lower upper : Decimal} (hle : lower.toRat ≤ upper.toRat)
    (h : Terms term (indices lower upper) s xs t) :
    (PartialScalesFit .one xs →
      Series.product.evaluate lower upper term s = (.ok (xs.foldl Decimal.mulPlain .one),
        { t with env := t.env.restore indexName (s.env.get? indexName) })) ∧
    (¬ PartialScalesFit .one xs → ∃ u, ProductStops term (indices lower upper) s u ∧
      Series.product.evaluate lower upper term s = (.error .stopped,
        { u with env := u.env.restore indexName (s.env.get? indexName) })) := by
  obtain ⟨ys, t', total, hys, htotal, hresult⟩ | ⟨error, u, hfails | hfails, hresult⟩ :=
    (evaluate_outcome .product lower upper term s).2 hle
  · obtain ⟨rfl, rfl⟩ := h.unique hys
    obtain ⟨hfits, rfl⟩ := foldlM_product_eq_ok_iff.mp htotal
    exact ⟨fun _ => hresult, fun hunfit => absurd hfits hunfit⟩
  · exact absurd hfails h.not_termFails
  · obtain ⟨rfl, hstops⟩ := productStops_of_totalFails hfails
    exact ⟨fun hfits => absurd hfits (hstops.not_partialScalesFit h), fun _ => ⟨u, hstops, hresult⟩⟩

/-- The scale of a product fits if those of all partial products do. -/
theorem scaleFits_foldl_product : ∀ {xs : List Decimal} {total : Decimal}, ScaleFits total.scale →
    PartialScalesFit total xs → ScaleFits (xs.foldl Decimal.mulPlain total).scale
  | [], _, htotal, _ => htotal
  | x :: xs, total, _, hfits => by
    rw [List.foldl_cons]
    exact scaleFits_foldl_product hfits.1 hfits.2

end Series

/-! ## Products -/

namespace Expr

open Series
open Decimal (ScaleFits)

/-- **What a product comes to when its terms have values.**  As long as the scale of every partial
product fits in 64 bits, it is the exact product, and its scale fits.  Otherwise the program stops at
the first partial product whose scale does not fit, before it looks at another term. -/
theorem evalWithin_product_exact_or_stopped {n : ℕ} {lower upper term : Expr} {x y : Decimal}
    {xs : List Decimal} {s s₁ s₂ t : Session} (hlower : evalWithin n lower s = (.ok x, s₁))
    (hupper : evalWithin n upper s₁ = (.ok y, s₂)) (hle : x.toRat ≤ y.toRat)
    (hterms : Terms (evalWithin n term) (indices x y) s₂ xs t) :
    (PartialScalesFit .one xs → ∃ total,
      evalWithin n (.call .product [lower, upper, term]) s =
        (.ok total, { t with env := t.env.restore indexName (s₂.env.get? indexName) }) ∧
      total.toRat = (xs.map Decimal.toRat).prod ∧ ScaleFits total.scale) ∧
    (¬ PartialScalesFit .one xs → ∃ u,
      evalWithin n (.call .product [lower, upper, term]) s =
        (.error .stopped, { u with env := u.env.restore indexName (s₂.env.get? indexName) }) ∧
      ProductStops (evalWithin n term) (indices x y) s₂ u) := by
  rw [evalWithin_series rfl term hlower hupper]
  obtain ⟨hexact, hstops⟩ := evaluate_product hle hterms
  refine ⟨fun hfits => ⟨_, hexact hfits, ?_, scaleFits_foldl_product (by decide) hfits⟩,
    fun hunfit => ?_⟩
  · rw [toRat_foldl_product, Decimal.toRat_one, one_mul]
  · obtain ⟨u, hproduct, hresult⟩ := hstops hunfit
    exact ⟨u, hresult, hproduct⟩

/-- A literal has its value as a term, whatever the index. -/
theorem terms_number (n : ℕ) (d : Decimal) : ∀ (list : List Decimal) (s : Session),
    ∃ t, Terms (evalWithin n (.number d)) list s (List.replicate list.length d) t
  | [], s => ⟨s, .none s⟩
  | index :: list, s => by
    obtain ⟨t, hrest⟩ := terms_number n d list (withIndex s index)
    exact ⟨t, .next (evalWithin_number n d _) hrest⟩

/-- `product(1, 3, 0.5)` is exactly the third power of a half. -/
theorem evalWithin_product_exact_or_stopped_halves :
    ∃ total,
      (evalWithin 0 (.call .product [.number .one, .number ⟨3, 0⟩, .number ⟨5, 1⟩])
        (.initial default (mkStdGen 0))).1 = .ok total ∧
      total.toRat = Decimal.toRat ⟨5, 1⟩ ^ 3 ∧ ScaleFits total.scale := by
  have hlength : (indices .one ⟨3, 0⟩).length = 3 := by
    rw [indices_of_atMost (by decide), indices_of_atMost (by decide), indices_of_atMost (by decide),
      indices_of_not (by decide)]
    rfl
  obtain ⟨t, hterms⟩ := terms_number 0 ⟨5, 1⟩ (indices .one ⟨3, 0⟩) (.initial default (mkStdGen 0))
  rw [hlength] at hterms
  obtain ⟨hexact, -⟩ := evalWithin_product_exact_or_stopped
    (evalWithin_number 0 .one _) (evalWithin_number 0 ⟨3, 0⟩ _)
    (Decimal.atMost_iff.mp (by decide)) hterms
  obtain ⟨total, hanswer, hvalue, hscale⟩ := hexact ⟨by decide, by decide, by decide, trivial⟩
  refine ⟨total, congrArg Prod.fst hanswer, ?_, hscale⟩
  rw [hvalue, List.map_replicate, List.prod_replicate]

/-- **A product whose scale leaves 64 bits is neither exact nor refused**: `product(1, 2, x)`, for an
`x` of `10 ^ (-2 ^ 62 - 1)`. -/
theorem not_product_exact_or_refused :
    ¬ ∀ (n : ℕ) (lower upper term : Expr) (x y : Decimal) (xs : List Decimal)
      (s s₁ s₂ t : Session), evalWithin n lower s = (.ok x, s₁) →
      evalWithin n upper s₁ = (.ok y, s₂) → x.toRat ≤ y.toRat →
      Terms (evalWithin n term) (indices x y) s₂ xs t → (∀ d ∈ xs, ScaleFits d.scale) →
        (∃ total, (evalWithin n (.call .product [lower, upper, term]) s).1 = .ok total ∧
          total.toRat = (xs.map Decimal.toRat).prod ∧ ScaleFits total.scale) ∨
        (evalWithin n (.call .product [lower, upper, term]) s).1 = .error .exponentOverflow := by
  intro h
  have hlength : (indices .one ⟨2, 0⟩).length = 2 := by
    rw [indices_of_atMost (by decide), indices_of_atMost (by decide), indices_of_not (by decide)]
    rfl
  have hle : Decimal.one.toRat ≤ Decimal.toRat ⟨2, 0⟩ := Decimal.atMost_iff.mp (by decide)
  obtain ⟨t, hterms⟩ := terms_number 0 ⟨1, 4611686018427387905⟩ (indices .one ⟨2, 0⟩)
    (.initial default (mkStdGen 0))
  rw [hlength] at hterms
  have hunfit : ¬ PartialScalesFit .one (List.replicate 2 ⟨1, 4611686018427387905⟩) :=
    fun hfits => absurd hfits.2.1 (by decide)
  obtain ⟨u, -, hresult⟩ := (evaluate_product hle hterms).2 hunfit
  have hproduct := h 0 (.number .one) (.number ⟨2, 0⟩) _ .one ⟨2, 0⟩ _ _ _ _ t
    (evalWithin_number 0 _ _) (evalWithin_number 0 _ _) hle hterms (by decide)
  rw [evalWithin_series rfl _ (evalWithin_number 0 _ _) (evalWithin_number 0 _ _),
    hresult] at hproduct
  obtain ⟨total, htotal, -⟩ | hrefused := hproduct
  · cases htotal
  · cases hrefused

end Expr

end Abacus
