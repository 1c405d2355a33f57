import Abacus.Proofs.Decimal.Rounding

/-!
# Proofs/Decimal/Division — the quotient is rounded once

Division truncates an integer quotient of at least two digits more than it keeps, and marks a
remainder by one more digit, away from zero.  The exact quotient and the marked one lie strictly
between the same two integers (`within_tdiv`), and no point at which a mode changes its mind lies
between two neighbouring integers as long as the rounding cuts off at least one digit: every half of
a power of ten above the units is an integer itself.  So one rounding of the marked quotient is one
rounding of the exact one (`RoundsTo.of_within`), for every mode and every sign.
-/

namespace Abacus

/-! ## Between two neighbouring integers -/

/-- `x` lies strictly between `m` and `m + 1`. -/
def Within (m : ℤ) (x : ℚ) : Prop :=
  m < x ∧ x < m + 1

namespace Within

variable {m : ℤ} {x y : ℚ}

/-- An integer at most `x` is at most the lower neighbour. -/
theorem le_iff (h : Within m x) (t : ℤ) : (t : ℚ) ≤ x ↔ t ≤ m := by
  constructor
  · intro ht
    have : (t : ℚ) < (m + 1 : ℤ) := by
      push_cast
      exact ht.trans_lt h.2
    exact Int.lt_add_one_iff.mp (by exact_mod_cast this)
  · intro ht
    exact (Int.cast_le.mpr ht).trans h.1.le

/-- An integer at least `x` is at least the upper neighbour. -/
theorem ge_iff (h : Within m x) (t : ℤ) : x ≤ t ↔ m + 1 ≤ t := by
  constructor
  · intro ht
    exact Int.add_one_le_iff.mpr (by exact_mod_cast h.1.trans_le ht)
  · intro ht
    have : ((m + 1 : ℤ) : ℚ) ≤ t := Int.cast_le.mpr ht
    push_cast at this
    exact h.2.le.trans this

/-- An integer cannot come between the magnitudes of two values between the same neighbours. -/
theorem le_abs_iff (hx : Within m x) (hy : Within m y) (t : ℤ) : (t : ℚ) ≤ |x| ↔ (t : ℚ) ≤ |y| := by
  have hneg : ∀ z : ℚ, (t : ℚ) ≤ -z ↔ z ≤ (-t : ℤ) := fun z => by
    push_cast
    exact le_neg
  rw [le_abs, le_abs, hx.le_iff, hy.le_iff, hneg, hneg, hx.ge_iff, hy.ge_iff]

/-- **A mode that drops at least one digit cannot tell two values apart between the same
neighbours.** -/
theorem select_div_eq (hx : Within m x) (hy : Within m y) (mode : RoundingMode) (e : ℕ) :
    mode.select (x / 10 ^ (e + 1)) = mode.select (y / 10 ^ (e + 1)) := by
  have hpos : (0 : ℚ) < 10 ^ (e + 1) := by positivity
  have hhalf : ∀ t : ℤ, (t / 2 : ℚ) * 10 ^ (e + 1) = (t * (5 * 10 ^ e) : ℤ) := fun t => by
    push_cast
    ring
  refine mode.select_congr (fun t => ?_) fun t => ?_
  · rw [le_div_iff₀ hpos, le_div_iff₀ hpos, hhalf, hx.le_iff, hy.le_iff]
  · rw [div_le_iff₀ hpos, div_le_iff₀ hpos, hhalf, hx.ge_iff, hy.ge_iff]

end Within

/-- Moving the point moves what is rounded to. -/
theorem RoundsTo.mul_zpow {mode : RoundingMode} {p : ℕ} {q r : ℚ} (h : RoundsTo mode p q r)
    (s : ℤ) : RoundsTo mode p (q * 10 ^ s) (r * 10 ^ s) := by
  have hs : (0 : ℚ) < 10 ^ s := by positivity
  have hadd : ∀ j : ℤ, (10 : ℚ) ^ (j + s) = 10 ^ j * 10 ^ s := fun j =>
    zpow_add₀ (by norm_num) j s
  obtain ⟨rfl, rfl⟩ | ⟨k, hlow, hhigh, rfl⟩ := h
  · exact .inl ⟨zero_mul _, zero_mul _⟩
  · refine .inr ⟨k + s, ?_, ?_, ?_⟩
    · rw [add_sub_right_comm, hadd, abs_mul, abs_of_pos hs]
      exact mul_le_mul_of_nonneg_right hlow hs.le
    · rw [hadd, abs_mul, abs_of_pos hs]
      exact mul_lt_mul_of_pos_right hhigh hs
    · rw [add_sub_right_comm, hadd, mul_div_mul_right _ _ hs.ne', mul_assoc]

/-- **Rounding looks past everything between two neighbouring integers**, if there are more digits
before the point than are kept. -/
theorem RoundsTo.of_within {mode : RoundingMode} {p : ℕ} {m : ℤ} {x y r : ℚ} (hx : Within m x)
    (hy : Within m y) (hlarge : 10 ^ (p + 1) ≤ |x|) (h : RoundsTo mode p y r) :
    RoundsTo mode p x r := by
  have hle : ∀ j : ℕ, (10 : ℚ) ^ j ≤ |x| ↔ (10 : ℚ) ^ j ≤ |y| := fun j => by
    exact_mod_cast hx.le_abs_iff hy (10 ^ j)
  have hlarge' := (hle (p + 1)).mp hlarge
  obtain ⟨rfl, -⟩ | ⟨k, hlow, hhigh, rfl⟩ := h
  · rw [abs_zero] at hlarge'
    exact absurd hlarge' (not_le.mpr (by positivity))
  · obtain ⟨e, rfl⟩ : ∃ e : ℕ, k = ((p + (e + 1) + 1 : ℕ) : ℤ) := by
      have hlt : (10 : ℚ) ^ ((p + 1 : ℕ) : ℤ) < 10 ^ k := by
        rw [zpow_natCast]
        exact hlarge'.trans_lt hhigh
      have := (zpow_lt_zpow_iff_right₀ (by norm_num : (1 : ℚ) < 10)).mp hlt
      exact ⟨(k - p - 2).toNat, by omega⟩
    refine .inr ⟨((p + (e + 1) + 1 : ℕ) : ℤ), ?_, ?_, ?_⟩
    · rw [Nat.cast_succ, add_sub_cancel_right, zpow_natCast] at hlow ⊢
      exact (hle _).mpr hlow
    · rw [zpow_natCast, ← not_le] at hhigh ⊢
      exact mt (hle _).mp hhigh
    · rw [show ((p + (e + 1) + 1 : ℕ) : ℤ) - p = ((e + 1 + 1 : ℕ) : ℤ) by push_cast; ring,
        zpow_natCast, hx.select_div_eq hy]

/-! ## The truncated quotient -/

/-- A sign is one or minus one, and a step of less than one in its direction stays between the same
neighbours. -/
theorem exists_within_of_sign {σ : ℤ} (hσ : σ = 1 ∨ σ = -1) (n : ℤ) :
    ∃ m : ℤ, ∀ f : ℚ, 0 < f → f < 1 → Within m (n + σ * f) := by
  obtain rfl | rfl := hσ
  · refine ⟨n, fun f h0 h1 => ⟨?_, ?_⟩⟩ <;> push_cast <;> linarith
  · refine ⟨n - 1, fun f h0 h1 => ⟨?_, ?_⟩⟩ <;> push_cast <;> linarith

theorem sign_mul_sign_eq {a b : ℤ} (ha : a ≠ 0) (hb : b ≠ 0) :
    a.sign * b.sign = 1 ∨ a.sign * b.sign = -1 := by
  rw [← Int.sign_mul]
  obtain h | h := lt_or_gt_of_ne (mul_ne_zero ha hb)
  · exact .inr (Int.sign_eq_neg_one_of_neg h)
  · exact .inl (Int.sign_eq_one_of_pos h)

/-- A nonzero integer is its sign times its magnitude, and so is its inverse. -/
theorem sign_div_abs {d : ℤ} (hd : d ≠ 0) : (d.sign / |(d : ℚ)|) = 1 / d := by
  obtain h | h := lt_or_gt_of_ne hd
  · rw [Int.sign_eq_neg_one_of_neg h, abs_of_neg (Int.cast_lt_zero.mpr h)]
    push_cast
    rw [neg_div_neg_eq]
  · rw [Int.sign_eq_one_of_pos h, abs_of_pos (Int.cast_pos.mpr h), Int.cast_one]

/-- A remainder is smaller than what it is divided by. -/
theorem abs_tmod_lt (n : ℤ) {d : ℤ} (hd : d ≠ 0) : |n.tmod d| < |d| := by
  rw [Int.abs_eq_natAbs, Int.abs_eq_natAbs, Int.natAbs_tmod]
  exact_mod_cast Nat.mod_lt n.natAbs (Int.natAbs_pos.mpr hd)

/-- A remainder that is not zero has the sign of what is divided. -/
theorem sign_tmod_of_ne_zero {n d : ℤ} (hr : n.tmod d ≠ 0) : (n.tmod d).sign = n.sign := by
  rw [Int.sign_tmod, if_neg fun hdvd => hr (Int.tmod_eq_zero_of_dvd hdvd)]

/-- **The exact quotient lies off the truncated one by less than one, away from zero.** -/
theorem div_eq_tdiv_add {n d : ℤ} (hd : d ≠ 0) (hr : n.tmod d ≠ 0) :
    ∃ f : ℚ, 0 < f ∧ f < 1 ∧ (n / d : ℚ) = n.tdiv d + (n.sign * d.sign : ℤ) * f := by
  have hdpos : 0 < |(d : ℚ)| := abs_pos.mpr (Int.cast_ne_zero.mpr hd)
  have hrest : (n.sign : ℚ) * |((n.tmod d : ℤ) : ℚ)| = (n.tmod d : ℤ) := by
    have h := Int.sign_mul_abs (n.tmod d)
    rw [sign_tmod_of_ne_zero hr] at h
    exact_mod_cast h
  have hsum : (n : ℚ) = d * n.tdiv d + (n.tmod d : ℤ) := by
    exact_mod_cast (Int.mul_tdiv_add_tmod n d).symm
  refine ⟨|((n.tmod d : ℤ) : ℚ)| / |(d : ℚ)|, ?_, ?_, ?_⟩
  · exact div_pos (abs_pos.mpr (Int.cast_ne_zero.mpr hr)) hdpos
  · rw [div_lt_one hdpos]
    exact_mod_cast abs_tmod_lt n hd
  · calc (n / d : ℚ) = n.tdiv d + (n.tmod d : ℤ) * (1 / d) := by
          rw [hsum]
          field_simp
      _ = n.tdiv d + (n.sign * |((n.tmod d : ℤ) : ℚ)|) * (d.sign / |(d : ℚ)|) := by
          rw [hrest, sign_div_abs hd]
      _ = n.tdiv d + (n.sign * d.sign : ℤ) * (|((n.tmod d : ℤ) : ℚ)| / |(d : ℚ)|) := by
          push_cast
          ring

/-- **A digit in place of the remainder stays between the neighbours of the exact quotient.** -/
theorem within_tdiv {n d : ℤ} (hn : n ≠ 0) (hd : d ≠ 0) (hr : n.tmod d ≠ 0) :
    ∃ m : ℤ, Within m (n / d : ℚ) ∧ Within m (n.tdiv d + (n.sign * d.sign : ℤ) * (1 / 10)) := by
  obtain ⟨m, hm⟩ := exists_within_of_sign (sign_mul_sign_eq hn hd) (n.tdiv d)
  obtain ⟨f, h0, h1, hf⟩ := div_eq_tdiv_add hd hr
  exact ⟨m, hf ▸ hm f h0 h1, hm (1 / 10) (by norm_num) (by norm_num)⟩

/-! ## Division -/

namespace Context

open Decimal

variable (c : Context) (a b : Decimal)

/-- The integer that is divided: the coefficient with its guard digits. -/
def numerator : ℤ :=
  a.coeff * tenTo (c.guardDigits a b)

/-- The scale of the integer quotient. -/
def quotientScale : ℤ :=
  a.scale - b.scale + c.guardDigits a b

theorem toRat_div_eq :
    a.toRat / b.toRat = (c.numerator a b / b.coeff : ℚ) * 10 ^ (-c.quotientScale a b) := by
  have ha : a.toRat = c.numerator a b * unit (a.scale + c.guardDigits a b) := by
    rw [numerator, mul_tenTo_mul_unit, add_sub_cancel_right, toRat]
  rw [ha, toRat, mul_div_mul_comm, unit_eq_zpow, unit_eq_zpow, ← zpow_sub₀ (by norm_num)]
  congr 2
  rw [quotientScale]
  ring

theorem magnitude_numerator :
    (c.numerator a b).natAbs = a.magnitude * tenTo (c.guardDigits a b) := by
  rw [numerator, Int.natAbs_mul, magnitude, Int.natAbs_natCast]

/-- **The guard digits leave more digits before the point than are kept.** -/
theorem le_abs_numerator_div (ha : a.coeff ≠ 0) (hb : b.coeff ≠ 0) :
    10 ^ (c.precision + 1) ≤ |(c.numerator a b / b.coeff : ℚ)| := by
  have hguard : c.precision + 1 + b.digitCount ≤ a.digitCount - 1 + c.guardDigits a b := by
    have : 0 < a.digitCount := Digits.count_pos a.magnitude
    rw [guardDigits]
    omega
  have hnat : tenTo (c.precision + 1) * b.magnitude ≤ (c.numerator a b).natAbs :=
    calc tenTo (c.precision + 1) * b.magnitude
        ≤ tenTo (c.precision + 1) * tenTo b.digitCount :=
          Nat.mul_le_mul_left _ (Digits.lt_tenTo_count b.magnitude).le
      _ = tenTo (c.precision + 1 + b.digitCount) := (tenTo_add _ _).symm
      _ ≤ tenTo (a.digitCount - 1 + c.guardDigits a b) := tenTo_le hguard
      _ = tenTo (a.digitCount - 1) * tenTo (c.guardDigits a b) := tenTo_add _ _
      _ ≤ a.magnitude * tenTo (c.guardDigits a b) :=
          Nat.mul_le_mul_right _ (Digits.tenTo_count_le (Int.natAbs_ne_zero.mpr ha))
      _ = (c.numerator a b).natAbs := (c.magnitude_numerator a b).symm
  have hcast : ∀ n : ℤ, |(n : ℚ)| = (n.natAbs : ℚ) := fun n => by rw [Nat.cast_natAbs, Int.cast_abs]
  rw [abs_div, hcast, hcast, le_div_iff₀ (by exact_mod_cast Int.natAbs_pos.mpr hb), ← tenTo_cast]
  exact_mod_cast hnat

theorem numerator_ne_zero (ha : a.coeff ≠ 0) : c.numerator a b ≠ 0 :=
  mul_ne_zero ha (by exact_mod_cast (tenTo_pos _).ne')

/-- What a division of nonzero decimals rounds: the quotient if it is exact, else the truncated
quotient with one more digit. -/
def markedQuotient : Decimal :=
  if (c.numerator a b).tmod b.coeff = 0 then
    ⟨(c.numerator a b).tdiv b.coeff, c.quotientScale a b⟩
  else
    ⟨(c.numerator a b).tdiv b.coeff * 10 + a.coeff.sign * b.coeff.sign, c.quotientScale a b + 1⟩

theorem toRat_markedQuotient_of_exact (hb : b.coeff ≠ 0)
    (hr : (c.numerator a b).tmod b.coeff = 0) :
    (c.markedQuotient a b).toRat = a.toRat / b.toRat := by
  have hquotient : (c.numerator a b / b.coeff : ℚ) = ((c.numerator a b).tdiv b.coeff : ℤ) := by
    rw [div_eq_iff (Int.cast_ne_zero.mpr hb)]
    have h := Int.mul_tdiv_add_tmod (c.numerator a b) b.coeff
    rw [hr, add_zero, mul_comm] at h
    exact_mod_cast h.symm
  rw [c.toRat_div_eq a b, hquotient, markedQuotient, if_pos hr, toRat, unit_eq_zpow]

theorem sign_numerator : (c.numerator a b).sign = a.coeff.sign := by
  rw [numerator, Int.sign_mul, Int.sign_natCast_of_ne_zero (tenTo_pos _).ne', mul_one]

theorem toRat_markedQuotient_of_inexact (hr : (c.numerator a b).tmod b.coeff ≠ 0) :
    (c.markedQuotient a b).toRat
      = ((c.numerator a b).tdiv b.coeff
          + ((c.numerator a b).sign * b.coeff.sign : ℤ) * (1 / 10))
        * 10 ^ (-c.quotientScale a b) := by
  rw [markedQuotient, if_neg hr, toRat, unit_eq_zpow, sign_numerator, neg_add,
    zpow_add₀ (by norm_num)]
  push_cast
  ring

/-- **Rounding the marked quotient rounds the exact one.** -/
theorem roundsTo_markedQuotient (ha : a.coeff ≠ 0) (hb : b.coeff ≠ 0) :
    RoundsTo c.rounding c.precision (a.toRat / b.toRat)
      (c.round (c.markedQuotient a b)).toRat := by
  have h := c.roundsTo_round (c.markedQuotient a b)
  by_cases hr : (c.numerator a b).tmod b.coeff = 0
  · rwa [c.toRat_markedQuotient_of_exact a b hb hr] at h
  · obtain ⟨m, hexact, hmarked⟩ := within_tdiv (c.numerator_ne_zero a b ha) hb hr
    have hcancel : ∀ (q : ℚ) {s t : ℤ}, s + t = 0 → q * 10 ^ s * 10 ^ t = q := fun q s t hst => by
      rw [mul_assoc, ← zpow_add₀ (by norm_num), hst, zpow_zero, mul_one]
    have hinteger := h.mul_zpow (c.quotientScale a b)
    rw [c.toRat_markedQuotient_of_inexact a b hr, hcancel _ (neg_add_cancel _)] at hinteger
    have hscaled := (hinteger.of_within hexact hmarked
      (c.le_abs_numerator_div a b ha hb)).mul_zpow (-c.quotientScale a b)
    rwa [hcancel _ (add_neg_cancel _), ← c.toRat_div_eq a b] at hscaled

/-- Every scale on the way to the quotient fits. -/
def QuotientFits : Prop :=
  c.guardDigits a b < twoTo 32 ∧ ScaleFits (a.scale - b.scale) ∧ ScaleFits (c.quotientScale a b) ∧
    ScaleFits (c.markedQuotient a b).scale

instance : Decidable (c.QuotientFits a b) :=
  inferInstanceAs (Decidable (_ ∧ _))

/-- **A division of nonzero decimals** rounds the marked quotient, if the scales on the way fit. -/
theorem divide_eq (ha : a.coeff ≠ 0) (hb : b.coeff ≠ 0) :
    c.divide a b = if c.QuotientFits a b then .ok (c.round (c.markedQuotient a b))
      else .error .exponentOverflow := by
  have hopen : c.divide a b =
      if c.guardDigits a b < twoTo 32 ∧ ScaleFits (a.scale - b.scale) ∧
          ScaleFits (c.quotientScale a b) then
        if (c.numerator a b).tmod b.coeff = 0 then
          .ok (c.round ⟨(c.numerator a b).tdiv b.coeff, c.quotientScale a b⟩)
        else if ScaleFits (c.quotientScale a b + 1) then
          .ok (c.round ⟨(c.numerator a b).tdiv b.coeff * 10 + a.coeff.sign * b.coeff.sign,
            c.quotientScale a b + 1⟩)
        else .error .exponentOverflow
      else .error .exponentOverflow := by
    rw [divide, if_neg (by simpa [isZero] using hb), if_neg (by simpa [isZero] using ha)]
    rfl
  rw [hopen]
  by_cases hr : (c.numerator a b).tmod b.coeff = 0
  · have hmarked : c.markedQuotient a b
        = ⟨(c.numerator a b).tdiv b.coeff, c.quotientScale a b⟩ := by rw [markedQuotient, if_pos hr]
    rw [if_pos hr, hmarked]
    refine if_congr ?_ rfl rfl
    rw [QuotientFits, hmarked]
    tauto
  · have hmarked : c.markedQuotient a b
        = ⟨(c.numerator a b).tdiv b.coeff * 10 + a.coeff.sign * b.coeff.sign,
          c.quotientScale a b + 1⟩ := by rw [markedQuotient, if_neg hr]
    rw [if_neg hr, hmarked, ← ite_and]
    refine if_congr ?_ rfl rfl
    rw [QuotientFits, hmarked]
    tauto

/-- Small scales and few enough digits leave room for every scale on the way. -/
theorem quotientFits {c : Context} {a b : Decimal} (ha : |a.scale| ≤ 2 ^ 61)
    (hb : |b.scale| ≤ 2 ^ 61) (hdigits : c.precision + b.digitCount + 2 < 2 ^ 32) :
    c.QuotientFits a b := by
  have hguard : c.guardDigits a b < 2 ^ 32 := by
    rw [guardDigits]
    omega
  have hscale : (c.markedQuotient a b).scale = c.quotientScale a b ∨
      (c.markedQuotient a b).scale = c.quotientScale a b + 1 := by
    rw [markedQuotient]
    split
    · exact .inl rfl
    · exact .inr rfl
  rw [abs_le] at ha hb
  refine ⟨hguard, ?_, ?_, ?_⟩ <;> unfold ScaleFits quotientScale at * <;> omega

/-- **Division is correctly rounded.**  An answer is the exact quotient rounded once to the
precision in the mode of the context; dividing by zero, and nothing else, is an error of its own;
and there is an answer whenever the scales are no larger than `2 ^ 61` and the digits fit in 32
bits. -/
theorem divide_roundsTo (c : Context) (a b : Decimal) :
    (∀ r, c.divide a b = .ok r →
      RoundsTo c.rounding c.precision (a.toRat / b.toRat) r.toRat) ∧
    (c.divide a b = .error .divisionByZero ↔ b.toRat = 0) ∧
    (b.toRat ≠ 0 → |a.scale| ≤ 2 ^ 61 → |b.scale| ≤ 2 ^ 61 →
      c.precision + b.digitCount + 2 < 2 ^ 32 → ∃ r, c.divide a b = .ok r) := by
  by_cases hb : b.coeff = 0
  · have hdivide : c.divide a b = .error .divisionByZero := by
      rw [divide, if_pos (by simpa [isZero] using hb)]
    have hzero : b.toRat = 0 := toRat_eq_zero.mpr hb
    rw [hdivide]
    exact ⟨fun r h => (by cases h), iff_of_true rfl hzero, fun h => absurd hzero h⟩
  · have hnonzero : b.toRat ≠ 0 := mt toRat_eq_zero.mp hb
    by_cases ha : a.coeff = 0
    · have hdivide : c.divide a b = .ok .zero := by
        rw [divide, if_neg (by simpa [isZero] using hb), if_pos (by simpa [isZero] using ha)]
      rw [hdivide]
      refine ⟨?_, iff_of_false (by simp) hnonzero, fun _ _ _ _ => ⟨_, rfl⟩⟩
      rintro r h
      cases h
      exact .inl ⟨by rw [toRat_eq_zero.mpr ha, zero_div], toRat_eq_zero.mpr rfl⟩
    · rw [c.divide_eq a b ha hb]
      refine ⟨?_, ?_, fun _ hsa hsb hdigits => ?_⟩
      · intro r h
        split at h
        · cases h
          exact c.roundsTo_markedQuotient a b ha hb
        · cases h
      · refine iff_of_false ?_ hnonzero
        split <;> simp
      · rw [if_pos (quotientFits hsa hsb hdigits)]
        exact ⟨_, rfl⟩

/-- Two over minus three has an answer to four digits, and it is correctly rounded. -/
theorem divide_roundsTo_two_thirds :
    ∃ r, divide ⟨4, .halfEven⟩ ⟨2, 0⟩ ⟨-3, 0⟩ = .ok r ∧
      RoundsTo .halfEven 4 (toRat ⟨2, 0⟩ / toRat ⟨-3, 0⟩) r.toRat := by
  obtain ⟨hrounds, -, hanswers⟩ := divide_roundsTo ⟨4, .halfEven⟩ ⟨2, 0⟩ ⟨-3, 0⟩
  obtain ⟨r, hr⟩ := hanswers (mt toRat_eq_zero.mp (by decide)) (by decide) (by decide) (by decide)
  exact ⟨r, hr, hrounds r hr⟩

end Context

end Abacus
