import Abacus.Proofs.Builtin
import Mathlib.Data.Sign.Basic

/-!
# Proofs/Decimal/Exact — operators and integer powers, in spite of their shortcuts

The operators look at how their operands are written: adding zero widens the other operand by a few
digits, a factor of one takes trailing zeros off, and everything else is first brought to one scale.
None of this shows in the value.  Sums, differences and products are those of the rationals, and a
remainder is what a division that truncates towards zero leaves (`IsRemainder`).  All that can go
wrong is a remainder by zero and a product whose scale does not fit in 64 bits.  Such a product is
refused, with one exception: a factor of one may take so many zeros off the other that the scale
leaves 64 bits all the same, and then the program stops (`Operator.apply_exact`).

A power with an exponent of 32 bits has two regimes (`power_eq`): the exact power, and one division
of one by it.  So it is the exact value or that value rounded once (`power_exact_or_rounded`).
-/

namespace Abacus

open Decimal

/-! ## Remainders -/

/-- **`r` is left of `a` by a division by `b` that truncates towards zero.** -/
structure IsRemainder (a b r : ℚ) : Prop where
  abs_lt : |r| < |b|
  sign_eq : r = 0 ∨ SignType.sign r = SignType.sign a
  quotient : ∃ q : ℤ, (a - r) / b = q

theorem sign_tmod_cast {n d : ℤ} (h : n.tmod d ≠ 0) :
    SignType.sign ((n.tmod d : ℤ) : ℚ) = SignType.sign (n : ℚ) := by
  have hsign := sign_tmod_of_ne_zero h
  obtain hn | rfl | hn := lt_trichotomy n 0
  · rw [Int.sign_eq_neg_one_of_neg hn, Int.sign_eq_neg_one_iff_neg] at hsign
    rw [sign_neg (Int.cast_lt_zero.mpr hn), sign_neg (Int.cast_lt_zero.mpr hsign)]
  · exact absurd (Int.zero_tmod d) h
  · rw [Int.sign_eq_one_of_pos hn, Int.sign_eq_one_iff_pos] at hsign
    rw [sign_pos (Int.cast_pos.mpr hn), sign_pos (Int.cast_pos.mpr hsign)]

theorem isRemainder_tmod (n : ℤ) {d : ℤ} (hd : d ≠ 0) : IsRemainder n d (n.tmod d : ℤ) where
  abs_lt := by exact_mod_cast abs_tmod_lt n hd
  sign_eq := by
    rw [Int.cast_eq_zero]
    exact or_iff_not_imp_left.mpr sign_tmod_cast
  quotient := by
    refine ⟨n.tdiv d, ?_⟩
    rw [div_eq_iff (Int.cast_ne_zero.mpr hd), sub_eq_iff_eq_add, mul_comm]
    exact_mod_cast (Int.mul_tdiv_add_tmod n d).symm

/-- A remainder stays one in any unit. -/
theorem IsRemainder.mul_pos {a b r u : ℚ} (h : IsRemainder a b r) (hu : 0 < u) :
    IsRemainder (a * u) (b * u) (r * u) where
  abs_lt := by
    rw [abs_mul, abs_mul]
    exact mul_lt_mul_of_pos_right h.abs_lt (abs_pos.mpr hu.ne')
  sign_eq := by
    rw [sign_mul, sign_mul, sign_pos hu, mul_one, mul_one, mul_eq_zero_iff_right hu.ne']
    exact h.sign_eq
  quotient := by
    rw [← sub_mul, mul_div_mul_right _ _ hu.ne']
    exact h.quotient

theorem isRemainder_rem (a : Decimal) {b : Decimal} (hb : b.toRat ≠ 0) :
    IsRemainder a.toRat b.toRat (a.rem b).toRat := by
  have hdivisor : b.coeffAt (max a.scale b.scale) ≠ 0 := by
    intro h
    refine hb ?_
    rw [← coeffAt_mul_unit b (le_max_right a.scale b.scale), h, Int.cast_zero, zero_mul]
  have h := (isRemainder_tmod (a.coeffAt (max a.scale b.scale)) hdivisor).mul_pos
    (unit_pos (max a.scale b.scale))
  rwa [coeffAt_mul_unit a (le_max_left ..), coeffAt_mul_unit b (le_max_right ..)] at h

/-! ## Operators -/

theorem mulChecked_eq_stored {a b : Decimal} (h : ScaleFits (a.scale + b.scale)) :
    a.mulChecked b = (a.mul b).stored :=
  if_pos h

theorem mulChecked_eq_error_iff (a b : Decimal) :
    a.mulChecked b = .error .exponentOverflow ↔ ¬ ScaleFits (a.scale + b.scale) := by
  by_cases h : ScaleFits (a.scale + b.scale)
  · rw [mulChecked_eq_stored h]
    exact iff_of_false (stored_ne_exponentOverflow _) (not_not.mpr h)
  · exact iff_of_true (if_neg h) h

theorem scale_normalized_le {d : Decimal} (h : d.coeff ≠ 0) : d.normalized.scale ≤ d.scale := by
  rw [normalized, if_neg h]
  exact sub_le_self _ (Nat.cast_nonneg _)

/-- A decimal whose scale fits cannot lose that by its trailing zeros but downwards. -/
theorem scale_normalized_lt {d : Decimal} (hscale : d.scale ≤ 2 ^ 63 - 1)
    (h : ¬ ScaleFits d.normalized.scale) : d.normalized.scale < -2 ^ 63 := by
  by_cases hzero : d.coeff = 0
  · exact absurd (by rw [normalized, if_pos hzero]; decide) h
  · have hle := scale_normalized_le hzero
    rw [ScaleFits] at h
    omega

/-- **Where the scales add up to 64 bits, only a factor of one makes a product leave them**, by the
zeros that it takes off the other factor. -/
theorem scale_normalized_of_mul {a b : Decimal} (hsum : ScaleFits (a.scale + b.scale))
    (hmul : ¬ ScaleFits (a.mul b).scale) :
    a.isOne = true ∧ b.normalized.scale < -2 ^ 63 ∨
      b.isOne = true ∧ a.normalized.scale < -2 ^ 63 := by
  have hnonneg : ∀ {d : Decimal}, d.isOne = true → 0 ≤ d.scale := fun h => by
    simp only [isOne, Bool.and_eq_true, decide_eq_true_eq] at h
    exact h.1.1
  rw [mul] at hmul
  rw [ScaleFits] at hsum
  split at hmul
  · next ha =>
      have := hnonneg ha
      exact .inl ⟨ha, scale_normalized_lt (by omega) hmul⟩
  · split at hmul
    · next hb =>
        have := hnonneg hb
        exact .inr ⟨hb, scale_normalized_lt (by omega) hmul⟩
    · exact absurd hsum hmul

theorem remChecked_eq_error_iff (a b : Decimal) :
    a.remChecked b = .error .divisionByZero ↔ b.toRat = 0 := by
  rw [remChecked]
  split
  · next h => exact iff_of_true rfl (isZero_iff.mp h)
  · next h => exact iff_of_false (by simp) (mt isZero_iff.mpr h)

/-- **The exact operators are exact, or the program stops.**  A sum and a difference always are
exact.  A product is refused for its scale exactly when the scales do not add up to 64 bits;
otherwise it is exact as long as its own scale fits, and if it does not, then because a factor of
one took zeros off the other, the program stops.  A remainder is refused exactly when the divisor is
zero.  No context has a say in this. -/
theorem Operator.apply_exact (c : Context) (a b : Decimal) :
    (∃ r, Operator.plus.apply c a b = .ok r ∧ r.toRat = a.toRat + b.toRat) ∧
    (∃ r, Operator.minus.apply c a b = .ok r ∧ r.toRat = a.toRat - b.toRat) ∧
    (Operator.times.apply c a b = .error .exponentOverflow ↔ ¬ ScaleFits (a.scale + b.scale)) ∧
    (ScaleFits (a.scale + b.scale) → ScaleFits (a.mul b).scale →
      ∃ r, Operator.times.apply c a b = .ok r ∧ r.toRat = a.toRat * b.toRat ∧
        ScaleFits r.scale) ∧
    (ScaleFits (a.scale + b.scale) → ¬ ScaleFits (a.mul b).scale →
      Operator.times.apply c a b = .error .stopped ∧
      (a.isOne = true ∧ b.normalized.scale < -2 ^ 63 ∨
        b.isOne = true ∧ a.normalized.scale < -2 ^ 63)) ∧
    (Operator.modulo.apply c a b = .error .divisionByZero ↔ b.toRat = 0) ∧
    (b.toRat ≠ 0 →
      ∃ r, Operator.modulo.apply c a b = .ok r ∧ IsRemainder a.toRat b.toRat r.toRat) ∧
    (∀ op c', op ≠ Operator.divide → op.apply c' a b = op.apply c a b) := by
  have htimes : Operator.times.apply c a b = a.mulChecked b := rfl
  refine ⟨⟨_, rfl, toRat_add a b⟩, ⟨_, rfl, toRat_sub a b⟩, mulChecked_eq_error_iff a b, ?_, ?_,
    remChecked_eq_error_iff a b,
    fun hb => ⟨a.rem b, if_neg (mt isZero_iff.mp hb), isRemainder_rem a hb⟩, ?_⟩
  · intro hsum hmul
    refine ⟨a.mul b, ?_, toRat_mul a b, hmul⟩
    rw [htimes, mulChecked_eq_stored hsum, stored_eq_ok hmul]
  · intro hsum hmul
    refine ⟨?_, scale_normalized_of_mul hsum hmul⟩
    rw [htimes, mulChecked_eq_stored hsum, stored_eq_stopped hmul]
  · intro op c' hop
    cases op with
    | divide => exact absurd rfl hop
    | plus | minus | times | modulo => rfl

/-- Minus seven and a half, and two written as `200e-2`. -/
theorem Operator.apply_exact_sevenAndHalf :
    (∃ r, Operator.times.apply default ⟨-75, 1⟩ ⟨200, 2⟩ = .ok r ∧
      r.toRat = toRat ⟨-75, 1⟩ * toRat ⟨200, 2⟩ ∧ ScaleFits r.scale) ∧
    (∃ r, Operator.modulo.apply default ⟨-75, 1⟩ ⟨200, 2⟩ = .ok r ∧
      IsRemainder (toRat ⟨-75, 1⟩) (toRat ⟨200, 2⟩) r.toRat) ∧
    Operator.modulo.apply default ⟨-75, 1⟩ ⟨200, 2⟩ =
      Operator.modulo.apply ⟨3, .up⟩ ⟨-75, 1⟩ ⟨200, 2⟩ := by
  obtain ⟨-, -, -, htimes, -, -, hmodulo, hcontext⟩ :=
    Operator.apply_exact default ⟨-75, 1⟩ ⟨200, 2⟩
  exact ⟨htimes (by decide) (by decide), hmodulo (mt toRat_eq_zero.mp (by decide)),
    (hcontext .modulo ⟨3, .up⟩ nofun).symm⟩

/-- **A product whose scales add up need not be exact**: one times ten at the least scale there is
stops the program. -/
theorem Operator.not_times_exact_or_refused :
    ¬ ∀ (c : Context) (a b : Decimal), ScaleFits a.scale → ScaleFits b.scale →
      (∃ r, Operator.times.apply c a b = .ok r ∧ r.toRat = a.toRat * b.toRat) ∨
      (Operator.times.apply c a b = .error .exponentOverflow ∧
        ¬ ScaleFits (a.scale + b.scale)) := by
  intro h
  have hstops : Operator.times.apply default .one ⟨10, -9223372036854775808⟩ = .error .stopped := by
    exact (mulChecked_eq_stored (by decide)).trans (stored_eq_stopped (by decide))
  obtain ⟨r, hr, -⟩ | ⟨hr, -⟩ := h default .one ⟨10, -9223372036854775808⟩ (by decide) (by decide)
  · rw [hstops] at hr
    cases hr
  · rw [hstops] at hr
    cases hr

/-! ## Powers -/

namespace Decimal

/-- `b` to the power `k`, at whatever scale. -/
def exactPower (b : Decimal) (k : ℕ) : Decimal :=
  ⟨Integer.pow b.coeff k, b.scale * k⟩

theorem toRat_exactPower (b : Decimal) (k : ℕ) : (b.exactPower k).toRat = b.toRat ^ k :=
  toRat_pow b k

theorem digitCount_exactPower (b : Decimal) (k : ℕ) :
    (b.exactPower k).digitCount = Digits.count (b.magnitude ^ k) := by
  rw [digitCount, magnitude, exactPower, Integer.pow_eq, Int.natAbs_pow, magnitude]

theorem inv_exactPower (b : Decimal) {n : ℤ} (hn : n < 0) :
    ((b.exactPower n.natAbs).toRat)⁻¹ = b.toRat ^ n := by
  rw [toRat_exactPower, ← zpow_natCast, ← zpow_neg]
  congr 1
  omega

/-- **The two regimes of a power** with an exponent of 32 bits.  The scale of the exact power is
looked at first, before the base is. -/
theorem power_eq (c : Context) (b : Decimal) {e : Decimal} {n : ℤ} (h : e.toInt32? = some n) :
    power c b e =
      if ScaleFits (b.scale * |n|) then
        if 0 ≤ n then .ok (b.exactPower n.natAbs) else c.divide .one (b.exactPower n.natAbs)
      else .error .exponentOverflow := by
  rw [power, h, ← Int.natCast_natAbs]
  simp only [powChecked]
  by_cases hfits : ScaleFits (b.scale * n.natAbs)
  · simp only [if_pos hfits]
    rfl
  · simp only [if_neg hfits]
    exact ite_self _

/-- One multiplied by `b`, `k` times. -/
def multiplied (c : Context) (b : Decimal) : ℕ → Except EvalError Decimal
  | 0 => .ok .one
  | k + 1 => multiplied c b k >>= fun r => Operator.times.apply c r b

theorem toRat_of_mulChecked {a b r : Decimal} (h : a.mulChecked b = .ok r) :
    r.toRat = a.toRat * b.toRat := by
  have hkeeps : KeepsScale (a.mulChecked b) := h ▸ .ok r
  obtain rfl : a.mul b = r := Except.ok.inj ((mulChecked_of_keepsScale hkeeps).symm.trans h)
  exact toRat_mul a b

/-- **Repeated multiplication has the value of the power**, if no product on the way is refused. -/
theorem toRat_multiplied {c : Context} {b : Decimal} :
    ∀ {k : ℕ} {r : Decimal}, multiplied c b k = .ok r → r.toRat = b.toRat ^ k
  | 0, r, h => by
    cases h
    rw [pow_zero, toRat_one]
  | k + 1, r, h => by
    rw [multiplied] at h
    cases hk : multiplied c b k with
    | error e =>
      rw [hk] at h
      cases h
    | ok r' =>
      rw [hk] at h
      rw [pow_succ, ← toRat_multiplied hk]
      exact toRat_of_mulChecked h

/-- The reciprocal of a decimal that is not zero is rounded once, if the scales on the way fit. -/
theorem divide_one_eq (c : Context) {p : Decimal} (hp : p.toRat ≠ 0) :
    ∃ r, RoundsTo c.rounding c.precision (p.toRat)⁻¹ r.toRat ∧
      c.divide .one p = if c.QuotientFits .one p then .ok r else .error .exponentOverflow := by
  have hcoeff : p.coeff ≠ 0 := mt toRat_eq_zero.mpr hp
  have hrounds := c.roundsTo_markedQuotient .one p one_ne_zero hcoeff
  rw [toRat_one, one_div] at hrounds
  exact ⟨_, hrounds, c.divide_eq .one p one_ne_zero hcoeff⟩

/-- **Integer powers are exact or correctly rounded.**  An exponent of 32 bits, however it is
written, is refused exactly when the scale of the exact power does not fit in 64 bits, whatever the
base.  Otherwise the power is exact for an exponent that is not negative, and is then what repeated
multiplication gives; for a negative one it is a division by zero, or the exact power rounded once,
which a scale on the way can only prevent if it is large. -/
theorem power_exact_or_rounded (c : Context) (b e : Decimal) {n : ℤ} (he : e.toRat = n)
    (hlow : -2 ^ 31 ≤ n) (hhigh : n ≤ 2 ^ 31 - 1) :
    (¬ ScaleFits (b.scale * |n|) → power c b e = .error .exponentOverflow) ∧
    (ScaleFits (b.scale * |n|) →
      (0 ≤ n → ∃ r, power c b e = .ok r ∧ r.toRat = b.toRat ^ n ∧
        ∀ r', multiplied c b n.toNat = .ok r' → r'.toRat = r.toRat) ∧
      (n < 0 → b.toRat = 0 → power c b e = .error .divisionByZero) ∧
      (n < 0 → b.toRat ≠ 0 →
        (power c b e = .error .exponentOverflow ∨
          ∃ r, power c b e = .ok r ∧ RoundsTo c.rounding c.precision (b.toRat ^ n) r.toRat) ∧
        (|b.scale * n| ≤ 2 ^ 61 →
          c.precision + Digits.count (b.magnitude ^ n.natAbs) + 2 < 2 ^ 32 →
            ∃ r, power c b e = .ok r))) := by
  rw [power_eq c b (toInt32?_eq_some_iff.mpr ⟨he, hlow, by omega⟩)]
  refine ⟨fun hfits => if_neg hfits, fun hfits => ?_⟩
  rw [if_pos hfits]
  refine ⟨fun hn => ?_, fun hn hb => ?_, fun hn hb => ?_⟩
  · obtain ⟨k, rfl⟩ := Int.eq_ofNat_of_zero_le hn
    have hvalue : (b.exactPower k).toRat = b.toRat ^ (k : ℤ) := by
      rw [toRat_exactPower, zpow_natCast]
    refine ⟨b.exactPower k, if_pos hn, hvalue, fun r' hr' => ?_⟩
    rw [hvalue, zpow_natCast]
    exact toRat_multiplied hr'
  · rw [if_neg (not_le.mpr hn)]
    refine divide_of_zero c .one (toRat_eq_zero.mp ?_)
    rw [toRat_exactPower, hb, zero_pow (Int.natAbs_ne_zero.mpr hn.ne)]
  · rw [if_neg (not_le.mpr hn)]
    have hpower : (b.exactPower n.natAbs).toRat ≠ 0 := by
      rw [toRat_exactPower]
      exact pow_ne_zero _ hb
    obtain ⟨r, hrounds, hdivide⟩ := divide_one_eq c hpower
    rw [inv_exactPower b hn] at hrounds
    rw [hdivide]
    refine ⟨?_, fun hscale hdigits => ⟨r, if_pos (Context.quotientFits ?_ ?_ ?_)⟩⟩
    · split
      · exact .inr ⟨r, rfl, hrounds⟩
      · exact .inl rfl
    · decide
    · rwa [exactPower, Int.natCast_natAbs, abs_mul, abs_abs, ← abs_mul]
    · rwa [digitCount_exactPower]

/-- A half to the power three, and two to the power minus three, written as `-30e-1`. -/
theorem power_exact_or_rounded_cubes :
    (∃ r, power ⟨4, .halfEven⟩ ⟨5, 1⟩ ⟨3, 0⟩ = .ok r ∧ r.toRat = toRat ⟨5, 1⟩ ^ (3 : ℤ)) ∧
    (∃ r, power ⟨4, .halfEven⟩ ⟨2, 0⟩ ⟨-30, 1⟩ = .ok r ∧
      RoundsTo .halfEven 4 (toRat ⟨2, 0⟩ ^ (-3 : ℤ)) r.toRat) := by
  have hthree : toRat ⟨3, 0⟩ = (3 : ℤ) := (toRat_eq_intCast_iff (by decide) 3).mpr (by decide)
  have hminus : toRat ⟨-30, 1⟩ = (-3 : ℤ) := (toRat_eq_intCast_iff (by decide) (-3)).mpr (by decide)
  obtain ⟨-, hcube⟩ := power_exact_or_rounded ⟨4, .halfEven⟩ ⟨5, 1⟩ ⟨3, 0⟩ hthree (by decide)
    (by decide)
  obtain ⟨-, hinverse⟩ := power_exact_or_rounded ⟨4, .halfEven⟩ ⟨2, 0⟩ ⟨-30, 1⟩ hminus (by decide)
    (by decide)
  obtain ⟨r, hr, hvalue, -⟩ := (hcube (by decide)).1 (by decide)
  obtain ⟨hrounded, hanswers⟩ :=
    (hinverse (by decide)).2.2 (by decide) (mt toRat_eq_zero.mp (by decide))
  obtain ⟨r', hr'⟩ := hanswers (by decide) (by decide)
  obtain herror | ⟨r'', hr'', hrounds⟩ := hrounded
  · rw [hr'] at herror
    cases herror
  · exact ⟨⟨r, hr, hvalue⟩, r'', hr'', hrounds⟩

end Decimal

end Abacus
