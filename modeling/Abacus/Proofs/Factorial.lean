import Abacus.Proofs.Evaluation.Product
import Mathlib.Data.Nat.Factorial.BigOperators
import Mathlib.Data.Nat.Log

/-!
# Proofs/Factorial — splitting a product into strides is the factorial

`descendingProduct n m` is the product of the positive numbers among `n`, `n - m`, `n - 2 * m`, …
It takes every second of these first and then those between, that is, two products of twice the
stride.  So the induction is over all strides at once (`descendingProduct_eq_prod`), and each call
doubles the stride, so that there are no more calls inside each other than doublings up to `n`
(`splits_descendingProduct`).

A series that multiplies its indices goes up one by one instead, and comes to the same number, in
the same writing: `factorial_by_splitting`.
-/

namespace Abacus

/-! ## Splitting -/

namespace Integer

/-- **The product is split for `n` and `m`, with calls inside each other at most `depth` deep, and
comes to `p`.** -/
inductive Splits : ℕ → ℕ → ℕ → ℕ → Prop where
  | whole {depth n m : ℕ} (h : n ≤ m) : Splits (depth + 1) n m n
  | halves {depth n m p q : ℕ} (h : m < n) (hp : Splits depth n (2 * m) p)
      (hq : Splits depth (n - m) (2 * m) q) : Splits (depth + 1) n m (p * q)

variable {n m : ℕ}

theorem descendingProduct_of_le (h : n ≤ m) : descendingProduct n m = n := by
  rw [descendingProduct, if_neg (by omega)]

theorem descendingProduct_of_lt (hm : 0 < m) (h : m < n) :
    descendingProduct n m = descendingProduct n (2 * m) * descendingProduct (n - m) (2 * m) := by
  rw [descendingProduct, if_pos ⟨hm, h⟩]

/-- **Calls go no deeper than the stride can be doubled.** -/
theorem splits_descendingProduct {depth : ℕ} (hm : 0 < m) (h : n ≤ m * 2 ^ depth) :
    Splits (depth + 1) n m (descendingProduct n m) := by
  induction depth generalizing n m with
  | zero =>
    have hle : n ≤ m := by simpa using h
    rw [descendingProduct_of_le hle]
    exact .whole hle
  | succ depth ih =>
    obtain hle | hlt := le_or_gt n m
    · rw [descendingProduct_of_le hle]
      exact .whole hle
    · have hdouble : n ≤ 2 * m * 2 ^ depth := by
        rw [pow_succ'] at h
        linarith
      rw [descendingProduct_of_lt hm hlt]
      exact .halves hlt (ih (by omega) hdouble) (ih (by omega) ((Nat.sub_le n m).trans hdouble))

/-- Splitting comes to one number only. -/
theorem Splits.eq_descendingProduct {depth p : ℕ} (hm : 0 < m) (h : Splits depth n m p) :
    p = descendingProduct n m := by
  induction h with
  | whole hle => exact (descendingProduct_of_le hle).symm
  | halves hlt hp hq ihp ihq =>
    rw [descendingProduct_of_lt hm hlt, ihp (by omega), ihq (by omega)]

/-! ## Strides -/

theorem prod_range_two_mul (f : ℕ → ℕ) (N : ℕ) :
    ∏ k ∈ Finset.range (2 * N), f k =
      (∏ k ∈ Finset.range N, f (2 * k)) * ∏ k ∈ Finset.range N, f (2 * k + 1) := by
  induction N with
  | zero => rfl
  | succ N ih =>
    rw [Nat.mul_succ, Finset.prod_range_succ, Finset.prod_range_succ, ih, Finset.prod_range_succ,
      Finset.prod_range_succ]
    ring

/-- The number after `k` steps of stride `m` down from `n`, or one if there is none left. -/
def stepDown (n m k : ℕ) : ℕ :=
  if k * m < n then n - k * m else 1

theorem stepDown_even (n m k : ℕ) : stepDown n m (2 * k) = stepDown n (2 * m) k := by
  rw [stepDown, stepDown, mul_comm 2 k, mul_assoc]

theorem stepDown_odd (hlt : m < n) (k : ℕ) :
    stepDown n m (2 * k + 1) = stepDown (n - m) (2 * m) k := by
  have hstep : (2 * k + 1) * m = k * (2 * m) + m := by ring
  rw [stepDown, stepDown, hstep, Nat.sub_add_eq, Nat.sub_right_comm]
  exact if_congr (by omega) rfl rfl

/-- Steps past the end do not count. -/
theorem prod_stepDown (hm : 0 < m) {N : ℕ} (hN : n ≤ N) :
    ∏ k ∈ Finset.range N, stepDown n m k = ∏ k ∈ Finset.range n with k * m < n, (n - k * m) := by
  rw [Finset.prod_filter]
  refine (Finset.prod_subset (Finset.range_mono hN) fun k _ hk => ?_).symm
  have hle : n ≤ k * m :=
    (not_lt.mp (mt Finset.mem_range.mpr hk)).trans (Nat.le_mul_of_pos_right k hm)
  exact if_neg (not_lt.mpr hle)

/-- **The product over a stride is that over every second step and that over the steps between.** -/
theorem prod_strides (hm : 0 < m) (hlt : m < n) :
    ∏ k ∈ Finset.range n with k * m < n, (n - k * m) =
      (∏ k ∈ Finset.range n with k * (2 * m) < n, (n - k * (2 * m))) *
        ∏ k ∈ Finset.range (n - m) with k * (2 * m) < n - m, (n - m - k * (2 * m)) := by
  rw [← prod_stepDown hm (show n ≤ 2 * n by omega), prod_range_two_mul]
  simp only [stepDown_even, stepDown_odd hlt]
  rw [prod_stepDown (by omega) le_rfl, prod_stepDown (by omega) (Nat.sub_le n m)]

/-- **Splitting multiplies the positive numbers among `n`, `n - m`, `n - 2 * m`, …** -/
theorem descendingProduct_eq_prod (hn : 0 < n) (hm : 0 < m) :
    descendingProduct n m = ∏ k ∈ Finset.range n with k * m < n, (n - k * m) := by
  -- the induction is that of the recursion: the stride doubles, and `n` stays or falls
  fun_induction descendingProduct n m with
  | case1 n m h ih ih' =>
    rw [ih hn (by omega), ih' (by omega) (by omega), ← prod_strides hm h.2]
  | case2 n m h =>
    have hle : n ≤ m := by omega
    have hone : (Finset.range n).filter (fun k => k * m < n) = {0} := by
      ext k
      simp only [Finset.mem_filter, Finset.mem_range, Finset.mem_singleton]
      constructor
      · rintro ⟨-, hk⟩
        by_contra hne
        have : m ≤ k * m := Nat.le_mul_of_pos_left m (Nat.pos_of_ne_zero hne)
        omega
      · rintro rfl
        omega
    rw [hone, Finset.prod_singleton, zero_mul, Nat.sub_zero]

theorem factorial_eq (n : ℕ) : factorial n = n.factorial := by
  rw [factorial]
  split
  · next h =>
    rw [h]
    rfl
  · next h =>
    rw [descendingProduct_eq_prod (Nat.pos_of_ne_zero h) one_pos, ← Nat.descFactorial_self,
      Nat.descFactorial_eq_prod_range]
    simp only [mul_one]
    rw [Finset.filter_true_of_mem fun k hk => Finset.mem_range.mp hk]

end Integer

/-! ## Factorials of decimals -/

namespace Decimal

variable {x : Decimal}

theorem factorial_of_natCast {n : ℕ} (h : x.toRat = n) :
    x.factorial = .ok (.ofInt n.factorial) := by
  have hn : x.toInt? = some (n : ℤ) := toInt?_eq_some_iff.mpr (by exact_mod_cast h)
  simp only [factorial, hn, if_neg (not_lt.mpr (Int.natCast_nonneg n)), Int.natAbs_natCast,
    Integer.factorial_eq]

theorem factorial_of_neg {n : ℤ} (hn : n < 0) (h : x.toRat = n) :
    x.factorial = .error (.factorialNegative x) := by
  simp only [factorial, toInt?_eq_some_iff.mpr h, if_pos hn]

theorem factorial_of_ne_intCast (h : ∀ n : ℤ, x.toRat ≠ n) :
    x.factorial = .error (.factorialNotInteger x) := by
  simp only [factorial, toInt?_eq_none_iff.mpr h]

/-! ## The product of the indices -/

theorem next_natCast (k : ℕ) : (ofInt k).next = ofInt (k + 1 : ℕ) := by
  rw [next]
  split
  · next h =>
    have hk : (k : ℤ) = 0 := by simpa [isZero, ofInt] using h
    rw [Int.natCast_eq_zero.mp hk]
    rfl
  · simp [addAligned, coeffAt_eq, ofInt, one, tenTo]

theorem mulPlain_ofInt (a b : ℤ) : (ofInt a).mulPlain (ofInt b) = ofInt (a * b) := by
  have hone : ∀ c : ℤ, (ofInt c).isOne = true → c = 1 := fun c h => by
    simpa [isOne, ofInt, tenTo] using h
  rw [mulPlain]
  split
  · next h => rw [hone a h, one_mul]
  · split
    · next h => rw [hone b h, mul_one]
    · rfl

end Decimal

namespace Series

open Decimal (ofInt)

/-- **From one on, the indices are the integers.** -/
theorem indices_one {d : Decimal} {n : ℕ} (h : d.toRat = n) :
    indices .one d = (List.range n).map fun k => ofInt (k + 1 : ℕ) := by
  have hcount : remaining .one d = n := by
    have hfloor : ((n : ℚ) - 1).floor = n - 1 :=
      (Int.floor_sub_one (n : ℚ)).trans (congrArg (· - 1) (Int.floor_natCast n))
    rw [remaining, h, Decimal.toRat_one, hfloor]
    omega
  have hindex : ∀ k : ℕ, Decimal.next^[k] .one = ofInt (k + 1 : ℕ) := by
    intro k
    induction k with
    | zero => rfl
    | succ k ih => rw [Function.iterate_succ_apply', ih, Decimal.next_natCast]
  rw [indices, hcount, ← List.range_map_iterate]
  exact List.map_congr_left fun k _ => hindex k

/-- Products of integers stay at scale zero. -/
theorem partialScalesFit_integers : ∀ {xs : List Decimal} (a : ℤ),
    (∀ x ∈ xs, ∃ b : ℤ, x = ofInt b) → PartialScalesFit (ofInt a) xs
  | [], _, _ => trivial
  | x :: xs, a, h => by
    obtain ⟨⟨b, rfl⟩, hrest⟩ := List.forall_mem_cons.mp h
    rw [PartialScalesFit, Decimal.mulPlain_ofInt]
    have hscale : Decimal.ScaleFits 0 := by decide
    exact ⟨hscale, partialScalesFit_integers (a * b) hrest⟩

theorem foldl_product_factorial (n : ℕ) :
    ((List.range n).map fun k => ofInt (k + 1 : ℕ)).foldl Decimal.mulPlain .one =
      ofInt n.factorial := by
  induction n with
  | zero => rfl
  | succ n ih =>
    rw [List.range_succ, List.map_append, List.foldl_append, ih]
    show (ofInt n.factorial).mulPlain (ofInt (n + 1 : ℕ)) = _
    rw [Decimal.mulPlain_ofInt, Nat.factorial_succ, mul_comm, Nat.cast_mul]

end Series

namespace Expr

open Series

/-- The index has itself as its value, and binding it is undone by whatever it is given back. -/
theorem terms_index (n : ℕ) : ∀ (list : List Decimal) (s : Session),
    ∃ t, Terms (evalWithin n (.var indexName)) list s list t ∧
      ∀ saved, { t with env := t.env.restore indexName saved } =
        { s with env := s.env.restore indexName saved }
  | [], s => ⟨s, .none s, fun _ => rfl⟩
  | index :: list, s => by
    obtain ⟨t, hrest, hback⟩ := terms_index n list (withIndex s index)
    obtain ⟨follow, hfollow⟩ := exists_evalWithin_eq n
    have hterm : evalWithin n (.var indexName) (withIndex s index) =
        (.ok index, withIndex s index) := by
      rw [hfollow]
      exact evalWith_var_literal (s.env.get?_set_self indexName _)
    refine ⟨t, .next hterm hrest, fun saved => ?_⟩
    rw [hback, withIndex, Environment.restore_set]

/-- `product(1, d, i)`. -/
def productOfIndices (d : Decimal) : Expr :=
  .call .product [.number .one, .number d, .var indexName]

/-- **The product of the indices from one on is the factorial**, and leaves everything as it was. -/
theorem eval_productOfIndices {d : Decimal} {n : ℕ} (hn : 0 < n) (h : d.toRat = n) (s : Session) :
    (productOfIndices d).eval s = (.ok (.ofInt n.factorial), s) := by
  have hle : Decimal.one.toRat ≤ d.toRat := by
    rw [h, Decimal.toRat_one]
    exact_mod_cast hn
  obtain ⟨t, hterms, hback⟩ := terms_index (nestingLimit s.env) (indices .one d) s
  have hfits : PartialScalesFit .one (indices .one d) := by
    refine partialScalesFit_integers 1 fun x hx => ?_
    rw [indices_one h, List.mem_map] at hx
    obtain ⟨k, -, rfl⟩ := hx
    exact ⟨_, rfl⟩
  rw [eval, productOfIndices, evalWithin_series rfl _ (evalWithin_number _ _ _)
    (evalWithin_number _ _ _), (evaluate_product hle hterms).1 hfits, hback,
    Environment.restore_get?, indices_one h, foldl_product_factorial]

theorem eval_factorial (d : Decimal) (s : Session) :
    (call .factorial [.number d]).eval s = (d.factorial, s) := by
  rw [eval_call_number rfl]

end Expr

/-- **Factorials by splitting.**  For positive `n` and `m` the splitting is done with calls no more
than `⌈log₂ n⌉ + 1` deep inside each other, and comes to the product of the positive numbers among
`n`, `n - m`, `n - 2 * m`, ….  So a decimal that is a natural number, however it is written, has its
factorial at scale zero, and any other decimal is refused for what it is.  For positive numbers this
is what the product of all indices from one up to the number is too. -/
theorem factorial_by_splitting :
    (∀ n m : ℕ, 0 < n → 0 < m →
      Integer.Splits (Nat.clog 2 n + 1) n m (Integer.descendingProduct n m) ∧
      (∀ depth p, Integer.Splits depth n m p → p = Integer.descendingProduct n m) ∧
      Integer.descendingProduct n m = ∏ k ∈ Finset.range n with k * m < n, (n - k * m)) ∧
    (∀ x : Decimal,
      (∀ n : ℕ, x.toRat = n → x.factorial = .ok (.ofInt n.factorial)) ∧
      ((∀ n : ℤ, x.toRat ≠ n) → x.factorial = .error (.factorialNotInteger x)) ∧
      (∀ n : ℤ, n < 0 → x.toRat = n → x.factorial = .error (.factorialNegative x))) ∧
    (∀ (n : ℕ) (x : Decimal) (s : Session), 0 < n → x.toRat = n →
      (Expr.call .factorial [.number x]).eval s = (.ok (.ofInt n.factorial), s) ∧
      (Expr.productOfIndices x).eval s = (.ok (.ofInt n.factorial), s)) := by
  refine ⟨fun n m hn hm => ⟨?_, fun depth p h => h.eq_descendingProduct hm,
    Integer.descendingProduct_eq_prod hn hm⟩, fun x => ⟨fun n => Decimal.factorial_of_natCast,
    Decimal.factorial_of_ne_intCast, fun n => Decimal.factorial_of_neg⟩,
    fun n x s hn hx => ⟨?_, ?_⟩⟩
  · refine Integer.splits_descendingProduct hm ((Nat.le_pow_clog one_lt_two n).trans ?_)
    exact Nat.le_mul_of_pos_left _ hm
  · rw [Expr.eval_factorial, Decimal.factorial_of_natCast hx]
  · exact Expr.eval_productOfIndices hn hx s

/-- Five by strides of two, the factorials of `5.00` and minus three, and `product(1, 5.0, i)`. -/
theorem factorial_by_splitting_five :
    Integer.Splits (Nat.clog 2 5 + 1) 5 2 (Integer.descendingProduct 5 2) ∧
    Integer.descendingProduct 5 2 = 15 ∧
    Decimal.factorial ⟨500, 2⟩ = .ok (.ofInt 120) ∧
    Decimal.factorial ⟨-3, 0⟩ = .error (.factorialNegative ⟨-3, 0⟩) ∧
    (Expr.productOfIndices ⟨50, 1⟩).eval (.initial default (mkStdGen 0)) =
      (.ok (.ofInt 120), .initial default (mkStdGen 0)) := by
  obtain ⟨hsplits, hdecimals, hproducts⟩ := factorial_by_splitting
  obtain ⟨hdepth, -, hvalue⟩ := hsplits 5 2 (by decide) (by decide)
  have hfive : ∀ k : ℕ, Decimal.toRat ⟨5 * tenTo k, k⟩ = (5 : ℕ) := fun k => by
    exact_mod_cast (Decimal.toRat_eq_intCast_iff (Int.natCast_nonneg k) 5).mpr rfl
  have hthree : Decimal.toRat ⟨-3, 0⟩ = (-3 : ℤ) :=
    (Decimal.toRat_eq_intCast_iff le_rfl (-3)).mpr rfl
  exact ⟨hdepth, hvalue.trans (by decide), (hdecimals _).1 5 (hfive 2),
    (hdecimals _).2.2 (-3) (by decide) hthree, (hproducts 5 _ _ (by decide) (hfive 1)).2⟩

end Abacus
