import Abacus.Builtin.Rule
import Abacus.Proofs.Decimal.Division

/-!
# Proofs/Decimal/Arithmetic — exact operations compute with values

Sums, differences, products and powers have the value that their names say, whatever corners they
cut and at whatever scale they answer.  The remainder and the integer part depend on values only as
well: at a scale that is fine enough for two decimals of one value both have the same coefficient
(`coeffAt_congr`), and dropping digits is rounding towards zero (`truncate_eq_select`).
-/

namespace Abacus

/-- A rounding mode and a precision leave no choice. -/
theorem RoundsTo.unique {mode : RoundingMode} {p : ℕ} {q r r' : ℚ} (h : RoundsTo mode p q r)
    (h' : RoundsTo mode p q r') : r = r' := by
  have hpos : ∀ k : ℤ, (0 : ℚ) < 10 ^ k := fun k => by positivity
  obtain ⟨rfl, rfl⟩ | ⟨k, hlow, hhigh, rfl⟩ := h
  · obtain ⟨-, rfl⟩ | ⟨k', hlow', -, -⟩ := h'
    · rfl
    · rw [abs_zero] at hlow'
      exact absurd hlow' (not_le.mpr (hpos _))
  · obtain ⟨rfl, -⟩ | ⟨k', hlow', hhigh', rfl⟩ := h'
    · rw [abs_zero] at hlow
      exact absurd hlow (not_le.mpr (hpos _))
    · have hk : k - 1 < k' :=
        (zpow_lt_zpow_iff_right₀ (by norm_num)).mp (hlow.trans_lt hhigh')
      have hk' : k' - 1 < k :=
        (zpow_lt_zpow_iff_right₀ (by norm_num)).mp (hlow'.trans_lt hhigh)
      obtain rfl : k = k' := by omega
      rfl

namespace Integer

theorem pow_eq (a : ℤ) (n : ℕ) : pow a n = a ^ n := by
  rw [pow]
  split
  · next h =>
    have ha : a = -(a.natAbs : ℤ) := by omega
    conv_rhs => rw [ha, (Nat.odd_iff.mpr h.2).neg_pow]
    exact congrArg Neg.neg (Nat.cast_pow a.natAbs n)
  · next h =>
    have hpow : a ^ n = (a.natAbs : ℤ) ^ n := by
      by_cases ha : a < 0
      · have hn : Even n := Nat.even_iff.mpr (by omega)
        rw [Int.natCast_natAbs, hn.pow_abs]
      · rw [Int.natAbs_of_nonneg (not_lt.mp ha)]
    rw [hpow]
    exact Nat.cast_pow a.natAbs n

end Integer

namespace Decimal

variable {a a' b b' : Decimal}

/-! ## Sums, differences and products -/

/-- **Two decimals of one value have one coefficient** at every scale that is fine enough. -/
theorem coeffAt_congr (h : a.toRat = a'.toRat) {s : ℤ} (ha : a.scale ≤ s) (ha' : a'.scale ≤ s) :
    a.coeffAt s = a'.coeffAt s := by
  have heq : (a.coeffAt s : ℚ) * unit s = a'.coeffAt s * unit s := by
    rw [coeffAt_mul_unit a ha, coeffAt_mul_unit a' ha', h]
  exact_mod_cast mul_right_cancel₀ (unit_ne_zero s) heq

theorem isZero_iff : a.isZero = true ↔ a.toRat = 0 := by
  rw [isZero, beq_iff_eq, toRat_eq_zero]

theorem toRat_widenTowards (a b : Decimal) : (a.widenTowards b).toRat = a.toRat :=
  coeffAt_mul_unit a (by omega)

theorem toRat_add (a b : Decimal) : (a.add b).toRat = a.toRat + b.toRat := by
  rw [add]
  split
  · next hb => rw [toRat_widenTowards, isZero_iff.mp hb, add_zero]
  · split
    · next ha => rw [toRat_widenTowards, isZero_iff.mp ha, zero_add]
    · exact toRat_addAligned a b

theorem toRat_sub (a b : Decimal) : (a.sub b).toRat = a.toRat - b.toRat := by
  rw [sub, toRat, ← coeffAt_mul_unit a (le_max_left a.scale b.scale),
    ← coeffAt_mul_unit b (le_max_right a.scale b.scale)]
  push_cast
  ring

theorem toRat_one : one.toRat = 1 := by
  rw [one, toRat_ofInt, Int.cast_one]

theorem toRat_of_isOne (h : a.isOne = true) : a.toRat = 1 := by
  simp only [isOne, Bool.and_eq_true, decide_eq_true_eq, beq_iff_eq] at h
  obtain ⟨⟨hscale, -⟩, hcoeff⟩ := h
  have hunit := tenTo_mul_unit a.scale.toNat 0
  rw [zero_add, Int.toNat_of_nonneg hscale, ← hcoeff] at hunit
  exact hunit

theorem toRat_mk_mul (a b : Decimal) :
    toRat ⟨a.coeff * b.coeff, a.scale + b.scale⟩ = a.toRat * b.toRat := by
  rw [toRat, toRat, toRat, unit_add]
  push_cast
  ring

theorem toRat_mul (a b : Decimal) : (a.mul b).toRat = a.toRat * b.toRat := by
  rw [mul]
  split
  · next ha => rw [toRat_normalized, toRat_of_isOne ha, one_mul]
  · split
    · next hb => rw [toRat_normalized, toRat_of_isOne hb, mul_one]
    · exact toRat_mk_mul a b

theorem toRat_mulPlain (a b : Decimal) : (a.mulPlain b).toRat = a.toRat * b.toRat := by
  rw [mulPlain]
  split
  · next ha => rw [toRat_of_isOne ha, one_mul]
  · split
    · next hb => rw [toRat_of_isOne hb, mul_one]
    · exact toRat_mk_mul a b

/-! ## Storing a result -/

theorem stored_eq_ok {d : Decimal} (h : ScaleFits d.scale) : d.stored = .ok d :=
  if_pos h

theorem stored_eq_stopped {d : Decimal} (h : ¬ ScaleFits d.scale) : d.stored = .error .stopped :=
  if_neg h

theorem stored_ne_exponentOverflow (d : Decimal) : d.stored ≠ .error .exponentOverflow := by
  rw [stored]
  split
  · nofun
  · nofun

/-! ## Powers -/

theorem toRat_pow (a : Decimal) (n : ℕ) :
    toRat ⟨Integer.pow a.coeff n, a.scale * n⟩ = a.toRat ^ n := by
  have hunit : unit (a.scale * n) = unit a.scale ^ n := by
    rw [unit_eq_zpow, unit_eq_zpow, ← zpow_natCast, ← zpow_mul, neg_mul]
  rw [toRat, toRat, Integer.pow_eq, hunit, mul_pow]
  push_cast
  rfl

/-! ## Remainders -/

theorem coeffAt_add {s : ℤ} (h : a.scale ≤ s) (k : ℕ) :
    a.coeffAt (s + k) = tenTo k * a.coeffAt s := by
  have hk : (s + k - a.scale).toNat = (s - a.scale).toNat + k := by omega
  rw [coeffAt_eq, coeffAt_eq, hk, tenTo_add]
  push_cast
  ring

/-- The remainder may be taken at any scale that is fine enough. -/
theorem toRat_rem {s : ℤ} (ha : a.scale ≤ s) (hb : b.scale ≤ s) :
    (a.rem b).toRat = ((a.coeffAt s).tmod (b.coeffAt s) : ℤ) * unit s := by
  obtain ⟨k, rfl⟩ : ∃ k : ℕ, s = max a.scale b.scale + k :=
    ⟨(s - max a.scale b.scale).toNat, by omega⟩
  have hpos : (0 : ℤ) < tenTo k := by exact_mod_cast tenTo_pos k
  rw [coeffAt_add (le_max_left ..), coeffAt_add (le_max_right ..), Int.mul_tmod_mul_of_pos _ _ hpos,
    mul_comm (tenTo k : ℤ), mul_tenTo_mul_unit, add_sub_cancel_right]
  rfl

theorem toRat_rem_congr (ha : a.toRat = a'.toRat) (hb : b.toRat = b'.toRat) :
    (a.rem b).toRat = (a'.rem b').toRat := by
  have hs : ∃ s, a.scale ≤ s ∧ a'.scale ≤ s ∧ b.scale ≤ s ∧ b'.scale ≤ s :=
    ⟨max (max a.scale a'.scale) (max b.scale b'.scale), by omega, by omega, by omega, by omega⟩
  obtain ⟨s, hsa, hsa', hsb, hsb'⟩ := hs
  rw [toRat_rem hsa hsb, toRat_rem hsa' hsb', coeffAt_congr ha hsa hsa', coeffAt_congr hb hsb hsb']

/-! ## Integers and order -/

theorem unit_zero : unit 0 = 1 :=
  rfl

/-- **Dropping digits is rounding towards zero.** -/
theorem withScale_eq_roundToScale (d : Decimal) (s : ℤ) :
    d.withScale s = d.roundToScale s .down := by
  have hdown : ∀ negative kept discard,
      RoundingMode.down.increments negative kept discard = false := by
    intro negative kept discard
    cases discard <;> rfl
  rw [roundToScale, withScale]
  split
  · rfl
  · simp [hdown]

theorem truncate_eq_select (d : Decimal) : d.truncate = RoundingMode.down.select d.toRat := by
  have hscale : (d.withScale 0).scale = 0 := by
    rw [withScale]
    split <;> rfl
  have hvalue : (d.withScale 0).toRat = d.truncate := by
    rw [toRat, hscale, unit_zero, mul_one, truncate]
  rw [withScale_eq_roundToScale, toRat_roundToScale, unit_zero, div_one, mul_one] at hvalue
  exact_mod_cast hvalue.symm

/-- A value is the integer `n` when its coefficient is `n` with the digits after the point. -/
theorem toRat_eq_intCast_iff {d : Decimal} (h : 0 ≤ d.scale) (n : ℤ) :
    d.toRat = n ↔ d.coeff = n * tenTo d.scale.toNat := by
  have hn : ((n * tenTo d.scale.toNat : ℤ) : ℚ) * unit d.scale = n := by
    rw [mul_tenTo_mul_unit, Int.toNat_of_nonneg h, sub_self, unit_zero, mul_one]
  rw [toRat, ← hn, mul_left_inj' (unit_ne_zero _), Int.cast_inj]

/-- **The test for integers sees the value.** -/
theorem isInteger_iff (d : Decimal) : d.isInteger = true ↔ ∃ n : ℤ, d.toRat = n := by
  rw [isInteger, Bool.or_eq_true, decide_eq_true_eq, beq_iff_eq, Digits.takeLast_eq,
    ← Nat.dvd_iff_mod_eq_zero, magnitude, Int.natCast_dvd.symm]
  obtain h | h := le_or_gt d.scale 0
  · refine iff_of_true (.inl h) ⟨d.coeffAt 0, ?_⟩
    rw [← coeffAt_mul_unit d h, unit_zero, mul_one]
  · rw [or_iff_right (not_le.mpr h), dvd_iff_exists_eq_mul_left]
    exact exists_congr fun n => (toRat_eq_intCast_iff h.le n).symm

/-- **An integer is read off whatever it is written like.** -/
theorem toInt?_eq_some_iff {d : Decimal} {n : ℤ} : d.toInt? = some n ↔ d.toRat = n := by
  rw [toInt?, truncate_eq_select]
  split
  · next h =>
    obtain ⟨m, hm⟩ := (isInteger_iff d).mp h
    rw [hm, RoundingMode.select_intCast, Option.some_inj, Int.cast_inj]
  · next h => exact iff_of_false nofun fun hn => h ((isInteger_iff d).mpr ⟨n, hn⟩)

theorem toInt?_eq_none_iff {d : Decimal} : d.toInt? = none ↔ ∀ n : ℤ, d.toRat ≠ n := by
  simp only [Option.eq_none_iff_forall_ne_some, ne_eq, toInt?_eq_some_iff]

theorem toInt32?_eq_some_iff {d : Decimal} {n : ℤ} :
    d.toInt32? = some n ↔ d.toRat = n ∧ -2147483648 ≤ n ∧ n ≤ 2147483647 := by
  rw [toInt32?, Option.filter_eq_some_iff, toInt?_eq_some_iff, decide_eq_true_eq]

theorem isInteger_congr (h : a.toRat = a'.toRat) : a.isInteger = a'.isInteger := by
  rw [Bool.eq_iff_iff, isInteger_iff, isInteger_iff, h]

theorem truncate_congr (h : a.toRat = a'.toRat) : a.truncate = a'.truncate := by
  rw [truncate_eq_select, truncate_eq_select, h]

theorem toInt?_congr (h : a.toRat = a'.toRat) : a.toInt? = a'.toInt? := by
  rw [toInt?, toInt?, isInteger_congr h, truncate_congr h]

theorem toInt32?_congr (h : a.toRat = a'.toRat) : a.toInt32? = a'.toInt32? := by
  rw [toInt32?, toInt32?, toInt?_congr h]

theorem compare_congr (ha : a.toRat = a'.toRat) (hb : b.toRat = b'.toRat) :
    a.compare b = a'.compare b' := by
  obtain h | h | h := lt_trichotomy a.toRat b.toRat
  · rw [compare_eq_lt.mpr h, compare_eq_lt.mpr (ha ▸ hb ▸ h)]
  · rw [compare_eq_eq.mpr h, compare_eq_eq.mpr (ha ▸ hb ▸ h)]
  · rw [compare_eq_gt.mpr h, compare_eq_gt.mpr (ha ▸ hb ▸ h)]

end Decimal

end Abacus
