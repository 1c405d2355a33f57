import Abacus.Context
import Abacus.Decimal.Order
import Mathlib.Algebra.Order.Field.Power
import Mathlib.Data.Rat.Floor
import Mathlib.Tactic.FieldSimp
import Mathlib.Tactic.Linarith
import Mathlib.Tactic.Positivity
import Mathlib.Tactic.Ring

/-!
# Proofs/Decimal/Value — other ways to write one value

Taking trailing zeros off, and putting the zeros of a round integer back on, changes the pair and
not the value: `toRat_normalized`, `toRat_stripFraction`.  The unit of a scale is a power of ten
(`unit_eq_zpow`), and a nonzero value lies between two neighbouring powers of ten that the digit
count of its coefficient names (`zpow_lead_le_abs`, `abs_lt_zpow_lead`).
-/

namespace Abacus

theorem tenTo_cast (k : ℕ) : (tenTo k : ℚ) = 10 ^ k := by
  simp [tenTo]

/-! ## Trailing zeros -/

namespace Digits

/-- Powers of ten multiply back what was stripped. -/
theorem stripBelow_mul : ∀ k n : ℕ, (stripBelow k n).1 * tenTo (stripBelow k n).2 = n
  | 0, n => by
      rw [stripBelow]
      split
      · next h => exact Nat.div_mul_cancel (Nat.dvd_of_mod_eq_zero h)
      · exact Nat.mul_one n
  | k + 1, n => by
      rw [stripBelow]
      split
      · next h =>
          rw [tenTo_add, ← Nat.mul_assoc, stripBelow_mul k]
          exact Nat.div_mul_cancel (Nat.dvd_of_mod_eq_zero h)
      · exact stripBelow_mul k n

theorem stripZeros_mul (n : ℕ) : (stripZeros n).1 * tenTo (stripZeros n).2 = n := by
  rw [stripZeros]
  split
  · exact stripBelow_mul _ n
  · exact Nat.mul_one n

end Digits

namespace Decimal

theorem unit_eq_zpow (s : ℤ) : unit s = (10 : ℚ) ^ (-s) :=
  rfl

theorem unit_ne_zero (s : ℤ) : unit s ≠ 0 :=
  (unit_pos s).ne'

/-- A coefficient moved to a coarser scale by a power of ten. -/
theorem mul_tenTo_mul_unit (n : ℤ) (k : ℕ) (s : ℤ) :
    ((n * tenTo k : ℤ) : ℚ) * unit s = n * unit (s - k) := by
  have h := tenTo_mul_unit k (s - k)
  rw [sub_add_cancel] at h
  rw [← h]
  push_cast
  ring

theorem toRat_normalized (d : Decimal) : d.normalized.toRat = d.toRat := by
  rw [normalized]
  split
  · next h => rw [toRat_eq_zero.mpr h, zero, toRat_ofInt, Int.cast_zero]
  · have hcoeff : d.coeff
        = d.coeff.sign * (Digits.stripZeros d.magnitude).1
          * tenTo (Digits.stripZeros d.magnitude).2 := by
      rw [mul_assoc, ← Nat.cast_mul, Digits.stripZeros_mul]
      exact (Int.sign_mul_natAbs d.coeff).symm
    rw [toRat, toRat]
    conv_rhs => rw [hcoeff, mul_tenTo_mul_unit]

theorem toRat_withScale_of_le {d : Decimal} {s : ℤ} (h : d.scale ≤ s) :
    (d.withScale s).toRat = d.toRat := by
  rw [withScale, if_pos h, toRat]
  exact coeffAt_mul_unit d h

/-- **Trailing zeros after the point do not count.** -/
theorem toRat_stripFraction (d : Decimal) : (Context.stripFraction d).toRat = d.toRat := by
  rw [Context.stripFraction]
  split
  · next h => rw [toRat_withScale_of_le h.le, toRat_normalized]
  · exact toRat_normalized d

/-! ## The leading place -/

theorem abs_toRat (d : Decimal) : |d.toRat| = d.abs.toRat := by
  rw [toRat, toRat, abs_mul, abs_of_pos (unit_pos d.scale), abs, magnitude]
  push_cast
  rfl

theorem lead_abs (d : Decimal) : d.abs.lead = d.lead :=
  rfl

/-- **A nonzero value reaches the power of ten below its leading place.** -/
theorem zpow_lead_le_abs {d : Decimal} (h : d.coeff ≠ 0) : (10 : ℚ) ^ (d.lead - 1) ≤ |d.toRat| := by
  have hpos : 0 < d.abs.coeff := Int.natAbs_pos.mpr h |> Int.ofNat_lt.mpr
  have hle := unit_lead_le_toRat hpos
  rwa [lead_abs, unit_eq_zpow, neg_sub, ← abs_toRat] at hle

/-- **A nonzero value lies below the power of ten of its leading place.** -/
theorem abs_lt_zpow_lead {d : Decimal} (h : d.coeff ≠ 0) : |d.toRat| < (10 : ℚ) ^ d.lead := by
  have hpos : 0 < d.abs.coeff := Int.natAbs_pos.mpr h |> Int.ofNat_lt.mpr
  have hlt := toRat_lt_unit_lead hpos
  rwa [lead_abs, unit_eq_zpow, neg_neg, ← abs_toRat] at hlt

end Decimal

end Abacus
