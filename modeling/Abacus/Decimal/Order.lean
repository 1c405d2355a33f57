import Abacus.Decimal.Basic

/-!
# Decimal/Order — comparing decimals by value

`compare` puts two decimals in the order of their values, `2` beside `2.00`. At different scales it
looks at the signs, then at the place of the leading digit, and brings the two to one scale only if
those agree, so that it never builds a power of ten larger than its operands' own digits.
-/

namespace Abacus.Decimal

/-- The place of the leading digit: a nonzero value lies between `10 ^ (lead - 1)` and `10 ^ lead`,
its sign left out. -/
def lead (d : Decimal) : Int :=
  d.digitCount - d.scale

/-- Compares the values of two positive decimals. -/
def comparePositive (a b : Decimal) : Ordering :=
  if a.lead < b.lead then .lt
  else if b.lead < a.lead then .gt
  else
    let s := max a.scale b.scale
    Ord.compare (a.coeffAt s) (b.coeffAt s)

/-- Compares two decimals of different scales. -/
def compareAcross (a b : Decimal) : Ordering :=
  match Ord.compare a.coeff.sign b.coeff.sign with
  | .lt => .lt
  | .gt => .gt
  | .eq =>
    if a.coeff = 0 then .eq
    else if 0 < a.coeff then comparePositive a b
    else comparePositive b.neg a.neg

/-- **Compares two decimals by value.** At one scale the coefficients decide. -/
def compare (a b : Decimal) : Ordering :=
  if a.scale = b.scale then Ord.compare a.coeff b.coeff else compareAcross a b

/-- Whether two decimals have the same value. -/
def equal (a b : Decimal) : Bool :=
  a.compare b == .eq

/-- Whether the value of `a` is at most that of `b`. -/
def atMost (a b : Decimal) : Bool :=
  a.compare b != .gt

/-! ## The order is the order of the values -/

theorem toRat_neg (d : Decimal) : d.neg.toRat = -d.toRat := by
  rw [toRat, toRat, neg, Rat.intCast_neg, Rat.neg_mul]

theorem toRat_lt_zero {d : Decimal} : d.toRat < 0 ↔ d.coeff < 0 := by
  rw [toRat, Rat.mul_neg_iff_of_pos_right (unit_pos _)]
  exact Rat.intCast_neg_iff

theorem toRat_pos {d : Decimal} : 0 < d.toRat ↔ 0 < d.coeff := by
  rw [toRat, Rat.mul_pos_iff_of_pos_right (unit_pos _)]
  exact Rat.intCast_pos

theorem toRat_eq_zero {d : Decimal} : d.toRat = 0 ↔ d.coeff = 0 := by
  rw [toRat, Rat.mul_eq_zero, Rat.intCast_eq_zero_iff]
  exact or_iff_left (Rat.ne_of_gt (unit_pos _))

theorem coeffAt_lt_iff {a b : Decimal} {s : Int} (ha : a.scale ≤ s) (hb : b.scale ≤ s) :
    a.coeffAt s < b.coeffAt s ↔ a.toRat < b.toRat := by
  rw [← coeffAt_mul_unit a ha, ← coeffAt_mul_unit b hb, Rat.mul_lt_mul_right (unit_pos _),
    Rat.intCast_lt_intCast]

/-- The unit of a finer scale is no larger. -/
theorem unit_le {s t : Int} (h : s ≤ t) : unit t ≤ unit s := by
  obtain ⟨k, rfl⟩ : ∃ k : Nat, t = s + k := ⟨(t - s).toNat, by omega⟩
  have hk : ((1 : Int) : Rat) ≤ ((tenTo k : Int) : Rat) :=
    Rat.intCast_le_intCast.mpr (Int.ofNat_le.mpr (tenTo_pos k))
  have hle := Rat.mul_le_mul_of_nonneg_right hk (Rat.le_of_lt (unit_pos (s + k)))
  rwa [tenTo_mul_unit, Rat.intCast_one, Rat.one_mul] at hle

/-- **A positive decimal lies below the unit of its leading place.** -/
theorem toRat_lt_unit_lead {d : Decimal} (h : 0 < d.coeff) : d.toRat < unit (-d.lead) := by
  have hc : d.coeff < (tenTo d.digitCount : Int) := by
    have := Digits.lt_tenTo_count d.magnitude
    have hm : (d.magnitude : Int) = d.coeff := Int.natAbs_of_nonneg (Int.le_of_lt h)
    rw [← hm]
    exact Int.ofNat_lt.mpr this
  have hq := Rat.mul_lt_mul_of_pos_right (Rat.intCast_lt_intCast.mpr hc) (unit_pos d.scale)
  rwa [← tenTo_mul_unit d.digitCount, show -d.lead + d.digitCount = d.scale by rw [lead]; omega]

/-- **A positive decimal reaches the unit below its leading place.** -/
theorem unit_lead_le_toRat {d : Decimal} (h : 0 < d.coeff) : unit (1 - d.lead) ≤ d.toRat := by
  have hm : (d.magnitude : Int) = d.coeff := Int.natAbs_of_nonneg (Int.le_of_lt h)
  have hc : (tenTo (d.digitCount - 1) : Int) ≤ d.coeff := by
    rw [← hm]
    exact Int.ofNat_le.mpr (Digits.tenTo_count_le (by omega))
  have hq := Rat.mul_le_mul_of_nonneg_right (Rat.intCast_le_intCast.mpr hc)
    (Rat.le_of_lt (unit_pos d.scale))
  have hpos : 0 < d.digitCount := Digits.count_pos _
  rwa [← tenTo_mul_unit (d.digitCount - 1),
    show 1 - d.lead + (d.digitCount - 1 : Nat) = d.scale by rw [lead]; omega]

theorem toRat_lt_of_lead_lt {a b : Decimal} (ha : 0 < a.coeff) (hb : 0 < b.coeff)
    (h : a.lead < b.lead) : a.toRat < b.toRat :=
  Std.lt_of_lt_of_le (toRat_lt_unit_lead ha)
    (Rat.le_trans (unit_le (by omega)) (unit_lead_le_toRat hb))

theorem comparePositive_eq_lt {a b : Decimal} (ha : 0 < a.coeff) (hb : 0 < b.coeff) :
    comparePositive a b = .lt ↔ a.toRat < b.toRat := by
  rw [comparePositive]
  split
  · next h => exact iff_of_true rfl (toRat_lt_of_lead_lt ha hb h)
  · split
    · next h =>
        exact iff_of_false (by decide)
          (Rat.not_lt.mpr (Rat.le_of_lt (toRat_lt_of_lead_lt hb ha h)))
    · exact Int.compare_eq_lt.trans (coeffAt_lt_iff (Int.le_max_left ..) (Int.le_max_right ..))

theorem comparePositive_eq_gt {a b : Decimal} (ha : 0 < a.coeff) (hb : 0 < b.coeff) :
    comparePositive a b = .gt ↔ b.toRat < a.toRat := by
  rw [comparePositive]
  split
  · next h =>
      exact iff_of_false (by decide)
        (Rat.not_lt.mpr (Rat.le_of_lt (toRat_lt_of_lead_lt ha hb h)))
  · split
    · next h => exact iff_of_true rfl (toRat_lt_of_lead_lt hb ha h)
    · exact Int.compare_eq_gt.trans (coeffAt_lt_iff (Int.le_max_right ..) (Int.le_max_left ..))

theorem toRat_lt_of_sign_lt {a b : Decimal} (h : a.coeff.sign < b.coeff.sign) :
    a.toRat < b.toRat := by
  have hcases : a.coeff < 0 ∧ 0 ≤ b.coeff ∨ a.coeff = 0 ∧ 0 < b.coeff := by
    grind [Int.sign_trichotomy, Int.sign_eq_one_iff_pos, Int.sign_eq_zero_iff_zero,
      Int.sign_eq_neg_one_iff_neg]
  rcases hcases with ⟨ha, hb⟩ | ⟨ha, hb⟩
  · exact Std.lt_of_lt_of_le (toRat_lt_zero.mpr ha)
      (Rat.not_lt.mp fun h => Int.not_lt.mpr hb (toRat_lt_zero.mp h))
  · rw [toRat_eq_zero.mpr ha]
    exact toRat_pos.mpr hb

/-- Of two decimals of one sign, the signs say which test compares them. -/
theorem sign_cases {a b : Decimal} (h : a.coeff.sign = b.coeff.sign) :
    a.coeff = 0 ∧ b.coeff = 0 ∨ 0 < a.coeff ∧ 0 < b.coeff ∨ a.coeff < 0 ∧ b.coeff < 0 := by
  grind [Int.sign_trichotomy, Int.sign_eq_one_iff_pos, Int.sign_eq_zero_iff_zero,
    Int.sign_eq_neg_one_iff_neg]

theorem compareAcross_eq_lt {a b : Decimal} :
    a.compareAcross b = .lt ↔ a.toRat < b.toRat := by
  rw [compareAcross]
  split
  · next h => exact iff_of_true rfl (toRat_lt_of_sign_lt (Int.compare_eq_lt.mp h))
  · next h =>
      exact iff_of_false (by decide)
        (Rat.not_lt.mpr (Rat.le_of_lt (toRat_lt_of_sign_lt (Int.compare_eq_gt.mp h))))
  · next h =>
      rcases sign_cases (Int.compare_eq_eq.mp h) with ⟨ha, hb⟩ | ⟨ha, hb⟩ | ⟨ha, hb⟩
      · rw [if_pos ha, toRat_eq_zero.mpr ha, toRat_eq_zero.mpr hb]
        exact iff_of_false (by decide) Rat.lt_irrefl
      · rw [if_neg (by omega), if_pos ha]
        exact comparePositive_eq_lt ha hb
      · rw [if_neg (by omega), if_neg (by omega),
          comparePositive_eq_lt (by simpa [neg] using hb) (by simpa [neg] using ha), toRat_neg,
          toRat_neg, Rat.neg_lt_neg_iff]

theorem compareAcross_eq_gt {a b : Decimal} :
    a.compareAcross b = .gt ↔ b.toRat < a.toRat := by
  rw [compareAcross]
  split
  · next h =>
      exact iff_of_false (by decide)
        (Rat.not_lt.mpr (Rat.le_of_lt (toRat_lt_of_sign_lt (Int.compare_eq_lt.mp h))))
  · next h => exact iff_of_true rfl (toRat_lt_of_sign_lt (Int.compare_eq_gt.mp h))
  · next h =>
      rcases sign_cases (Int.compare_eq_eq.mp h) with ⟨ha, hb⟩ | ⟨ha, hb⟩ | ⟨ha, hb⟩
      · rw [if_pos ha, toRat_eq_zero.mpr ha, toRat_eq_zero.mpr hb]
        exact iff_of_false (by decide) Rat.lt_irrefl
      · rw [if_neg (by omega), if_pos ha]
        exact comparePositive_eq_gt ha hb
      · rw [if_neg (by omega), if_neg (by omega),
          comparePositive_eq_gt (by simpa [neg] using hb) (by simpa [neg] using ha), toRat_neg,
          toRat_neg, Rat.neg_lt_neg_iff]

theorem coeff_lt_iff {a b : Decimal} (h : a.scale = b.scale) :
    a.coeff < b.coeff ↔ a.toRat < b.toRat := by
  rw [toRat, toRat, h, Rat.mul_lt_mul_right (unit_pos _), Rat.intCast_lt_intCast]

/-- **`compare` answers "below" exactly when the first value is below the second.** -/
theorem compare_eq_lt {a b : Decimal} : a.compare b = .lt ↔ a.toRat < b.toRat := by
  rw [compare]
  split
  · next h => exact Int.compare_eq_lt.trans (coeff_lt_iff h)
  · exact compareAcross_eq_lt

/-- **`compare` answers "above" exactly when the first value is above the second.** -/
theorem compare_eq_gt {a b : Decimal} : a.compare b = .gt ↔ b.toRat < a.toRat := by
  rw [compare]
  split
  · next h => exact Int.compare_eq_gt.trans (coeff_lt_iff h.symm)
  · exact compareAcross_eq_gt

theorem compare_eq_eq {a b : Decimal} : a.compare b = .eq ↔ a.toRat = b.toRat := by
  have hlt := compare_eq_lt (a := a) (b := b)
  have hgt := compare_eq_gt (a := a) (b := b)
  constructor
  · intro h
    rw [h] at hlt hgt
    exact Rat.le_antisymm (Rat.not_lt.mp fun h => by simp [h] at hgt)
      (Rat.not_lt.mp fun h => by simp [h] at hlt)
  · intro h
    rw [h] at hlt hgt
    cases hc : a.compare b with
    | lt => exact absurd (hlt.mp hc) Rat.lt_irrefl
    | eq => rfl
    | gt => exact absurd (hgt.mp hc) Rat.lt_irrefl

/-- **Two decimals are equal exactly when they have one value.** -/
theorem equal_iff {a b : Decimal} : a.equal b = true ↔ a.toRat = b.toRat := by
  rw [equal, beq_iff_eq, compare_eq_eq]

theorem atMost_iff {a b : Decimal} : a.atMost b = true ↔ a.toRat ≤ b.toRat := by
  rw [atMost, bne_iff_ne, ne_eq, compare_eq_gt, Rat.not_lt]

end Abacus.Decimal
