import Abacus.Proofs.Decimal.Value

/-!
# Proofs/Decimal/Rounding — rounding is what the modes say of the exact value

`RoundingMode.select` says, in terms of floors and ceilings of a rational, which integer a mode goes
to; `RoundsTo` moves that to the grid of `p` significant digits.  Rounding itself works on the
digits of a magnitude, and the two meet in the *location* of a value between two neighbouring
integers (`Discard.Locates`): it is what the dropped digits amount to, and all that a mode looks at.

* `toRat_roundToScale` — rounding to a scale selects on the grid of that scale.
* `roundsTo_round` — `Context.round` rounds its operand once to the precision of the context.
* `select_congr` — a mode does not tell two values apart that no half-integer separates.
-/

namespace Abacus

/-! ## What a mode selects -/

/-- The integer nearest to `x`, or `tie` if two are equally near. -/
def nearestOr (tie : ℤ) (x : ℚ) : ℤ :=
  if x - ⌊x⌋ < 1 / 2 then ⌊x⌋ else if 1 / 2 < x - ⌊x⌋ then ⌈x⌉ else tie

/-- **The integer that a mode goes to from `x`**: `x` itself if it is one, else a neighbour. -/
def RoundingMode.select (mode : RoundingMode) (x : ℚ) : ℤ :=
  match mode with
  | .up => if 0 ≤ x then ⌈x⌉ else ⌊x⌋
  | .down => if 0 ≤ x then ⌊x⌋ else ⌈x⌉
  | .ceiling => ⌈x⌉
  | .floor => ⌊x⌋
  | .halfUp => nearestOr (if 0 ≤ x then ⌈x⌉ else ⌊x⌋) x
  | .halfDown => nearestOr (if 0 ≤ x then ⌊x⌋ else ⌈x⌉) x
  | .halfEven => nearestOr (if 2 ∣ ⌊x⌋ then ⌊x⌋ else ⌈x⌉) x

/-- **`r` is `q` rounded once to `p` significant digits**: zero stays zero, and a value between
`10 ^ (k - 1)` and `10 ^ k` goes to the multiple of `10 ^ (k - p)` that the mode selects. -/
def RoundsTo (mode : RoundingMode) (p : ℕ) (q r : ℚ) : Prop :=
  q = 0 ∧ r = 0 ∨
    ∃ k : ℤ, 10 ^ (k - 1) ≤ |q| ∧ |q| < 10 ^ k ∧
      r = mode.select (q / 10 ^ (k - p)) * 10 ^ (k - p)

@[simp] theorem RoundingMode.select_intCast (mode : RoundingMode) (n : ℤ) :
    mode.select (n : ℚ) = n := by
  cases mode <;> simp [select, nearestOr]

@[simp] theorem RoundingMode.select_zero (mode : RoundingMode) : mode.select 0 = 0 := by
  simpa using mode.select_intCast 0

/-- **A mode looks only at where a value lies among the half-integers.** -/
theorem RoundingMode.select_congr (mode : RoundingMode) {x y : ℚ}
    (hle : ∀ t : ℤ, (t / 2 : ℚ) ≤ x ↔ (t / 2 : ℚ) ≤ y)
    (hge : ∀ t : ℤ, x ≤ (t / 2 : ℚ) ↔ y ≤ (t / 2 : ℚ)) : mode.select x = mode.select y := by
  have hle' : ∀ t : ℤ, (t : ℚ) ≤ x ↔ (t : ℚ) ≤ y := fun t => by simpa using hle (2 * t)
  have hge' : ∀ t : ℤ, x ≤ t ↔ y ≤ t := fun t => by simpa using hge (2 * t)
  have hhalf : ∀ t : ℤ, (t : ℚ) + 1 / 2 = ((2 * t + 1 : ℤ) : ℚ) / 2 := fun t => by
    push_cast
    ring
  have hfloor : ⌊x⌋ = ⌊y⌋ :=
    eq_of_forall_le_iff fun t => by rw [Int.le_floor, Int.le_floor, hle']
  have hceil : ⌈x⌉ = ⌈y⌉ :=
    eq_of_forall_ge_iff fun t => by rw [Int.ceil_le, Int.ceil_le, hge']
  have hsign : 0 ≤ x ↔ 0 ≤ y := by simpa using hle' 0
  have hbelow : x - ⌊y⌋ < 1 / 2 ↔ y - ⌊y⌋ < 1 / 2 := by
    rw [sub_lt_iff_lt_add', sub_lt_iff_lt_add', hhalf, ← not_le, ← not_le, hle]
  have habove : 1 / 2 < x - ⌊y⌋ ↔ 1 / 2 < y - ⌊y⌋ := by
    rw [lt_sub_iff_add_lt', lt_sub_iff_add_lt', hhalf, ← not_le, ← not_le, hge]
  cases mode <;> simp only [select, nearestOr, hfloor, hceil, hsign, hbelow, habove]

/-! ## The location of a value between two integers -/

/-- `y` lies between `n` and `n + 1`, as far above `n` as the discard says. -/
def Discard.Locates (discard : Discard) (n : ℕ) (y : ℚ) : Prop :=
  match discard with
  | .nothing => y = n
  | .belowHalf => (n : ℚ) < y ∧ y < n + 1 / 2
  | .half => y = n + 1 / 2
  | .aboveHalf => n + 1 / 2 < y ∧ y < (n : ℚ) + 1

theorem lt_tenTo_of_count_lt {n k : ℕ} (h : Digits.count n < k) : 10 * n < tenTo k :=
  calc 10 * n < 10 * tenTo (Digits.count n) :=
        Nat.mul_lt_mul_of_pos_left (Digits.lt_tenTo_count n) (by decide)
    _ = tenTo (Digits.count n + 1) := by rw [tenTo_add, Nat.mul_comm]; rfl
    _ ≤ tenTo k := tenTo_le h

/-- **The last digits of `n` locate it between the multiples of their power of ten.** -/
theorem Discard.locates_ofLast (n k : ℕ) :
    (Discard.ofLast n k).Locates (n / tenTo k) (n / tenTo k : ℚ) := by
  have hpos : (0 : ℚ) < tenTo k := by exact_mod_cast tenTo_pos k
  have hsplit : (n : ℚ) = tenTo k * (n / tenTo k : ℕ) + (n % tenTo k : ℕ) := by
    exact_mod_cast (Nat.div_add_mod n (tenTo k)).symm
  have hrest : ((n % tenTo k : ℕ) : ℚ) < tenTo k := by
    exact_mod_cast Nat.mod_lt n (tenTo_pos k)
  rw [ofLast]
  split
  · next h => simp [h, Locates]
  · next h =>
      split
      · next hk =>
          have hlt := lt_tenTo_of_count_lt hk
          have hlt' : (10 * n : ℚ) < tenTo k := by exact_mod_cast hlt
          have hn : (0 : ℚ) < n := by exact_mod_cast Nat.pos_of_ne_zero h
          rw [Locates, Nat.div_eq_of_lt (by omega), Nat.cast_zero, zero_add]
          exact ⟨div_pos hn hpos, by rw [div_lt_div_iff₀ hpos two_pos]; linarith⟩
      · simp only
        split
        · next h0 =>
            rw [h0, Nat.cast_zero, add_zero] at hsplit
            exact (div_eq_iff hpos.ne').mpr (by rw [mul_comm, ← hsplit])
        · next h0 =>
            have hr : (0 : ℚ) < (n % tenTo k : ℕ) := by exact_mod_cast Nat.pos_of_ne_zero h0
            split
            · next hc =>
                have hc' : (2 * (n % tenTo k : ℕ) : ℚ) < tenTo k := by
                  exact_mod_cast Nat.compare_eq_lt.mp hc
                exact ⟨(lt_div_iff₀ hpos).mpr (by linarith), (div_lt_iff₀ hpos).mpr (by linarith)⟩
            · next hc =>
                have hc' : (2 * (n % tenTo k : ℕ) : ℚ) = tenTo k := by
                  exact_mod_cast Nat.compare_eq_eq.mp hc
                exact (div_eq_iff hpos.ne').mpr (by linarith)
            · next hc =>
                have hc' : (tenTo k : ℚ) < 2 * (n % tenTo k : ℕ) := by
                  exact_mod_cast Nat.compare_eq_gt.mp hc
                exact ⟨(lt_div_iff₀ hpos).mpr (by linarith), (div_lt_iff₀ hpos).mpr (by linarith)⟩

namespace Discard.Locates

variable {discard : Discard} {n : ℕ} {y : ℚ}

theorem le (h : discard.Locates n y) : (n : ℚ) ≤ y := by
  cases discard <;> simp only [Locates] at h <;> linarith

theorem floor_eq (h : discard.Locates n y) : ⌊y⌋ = n := by
  rw [Int.floor_eq_iff, Int.cast_natCast]
  cases discard <;> simp only [Locates] at h <;> constructor <;> linarith

theorem ceil_eq (h : discard.Locates n y) : ⌈y⌉ = if discard = .nothing then n else n + 1 := by
  rw [Int.ceil_eq_iff]
  cases discard <;> simp only [Locates] at h <;> simp <;> constructor <;> linarith

/-- The nearest integer to a located magnitude. -/
theorem nearestOr_eq (h : discard.Locates n y) (tie : ℤ) :
    nearestOr tie y = match discard with
      | .nothing | .belowHalf => (n : ℤ)
      | .half => tie
      | .aboveHalf => n + 1 := by
  rw [nearestOr, h.floor_eq, h.ceil_eq, Int.cast_natCast]
  cases discard <;> simp only [Locates] at h
  · rw [if_pos (by linarith)]
  · rw [if_pos (by linarith)]
  · rw [if_neg (by linarith), if_neg (by linarith)]
  · rw [if_neg (by linarith), if_pos (by linarith)]
    rfl

/-- The nearest integer to the negative of a located magnitude. -/
theorem nearestOr_neg_eq (h : discard.Locates n y) (tie : ℤ) :
    nearestOr tie (-y) = match discard with
      | .nothing | .belowHalf => -(n : ℤ)
      | .half => tie
      | .aboveHalf => -(n + 1 : ℤ) := by
  rw [nearestOr, Int.floor_neg, Int.ceil_neg, h.floor_eq, h.ceil_eq]
  cases discard <;> simp only [Locates] at h <;> simp only [reduceCtorEq, if_true, if_false] <;>
    push_cast
  · rw [if_pos (by linarith)]
  · rw [if_neg (by linarith), if_pos (by linarith)]
  · rw [if_neg (by linarith), if_neg (by linarith)]
  · rw [if_pos (by linarith)]

end Discard.Locates

namespace RoundingMode

variable {discard : Discard} {n : ℕ} {y : ℚ}

/-- **Where a magnitude lies decides what a mode selects for a value of that magnitude**, given the
sign. -/
theorem select_of_locates (mode : RoundingMode) (h : discard.Locates n y) :
    mode.select y = if mode.increments false n discard then (n + 1 : ℤ) else n := by
  have hy : 0 ≤ y := n.cast_nonneg.trans h.le
  cases mode <;> simp only [select, if_pos hy, h.floor_eq, h.ceil_eq, h.nearestOr_eq] <;>
    cases discard <;> simp [increments]
  omega

theorem select_neg_of_locates (mode : RoundingMode) (h : discard.Locates n y) (hy : 0 < y) :
    mode.select (-y) = -if mode.increments true n discard then (n + 1 : ℤ) else n := by
  have hneg : ¬ 0 ≤ -y := by linarith
  cases mode <;>
    simp only [select, if_neg hneg, Int.floor_neg, Int.ceil_neg, h.floor_eq, h.ceil_eq,
      h.nearestOr_neg_eq] <;>
    cases discard <;> simp [increments]
  omega

end RoundingMode

/-! ## Rounding selects -/

namespace Decimal

/-- A coefficient that loses digits becomes what the mode selects for its quotient. -/
theorem coeff_roundToScale {d : Decimal} {s : ℤ} (mode : RoundingMode) (h : s < d.scale) :
    (d.roundToScale s mode).coeff = mode.select (d.coeff / tenTo (d.scale - s).toNat : ℚ) := by
  rw [roundToScale, if_neg (not_le.mpr h)]
  generalize (d.scale - s).toNat = cut
  simp only [Digits.dropLast_eq]
  have hlocates := Discard.locates_ofLast d.magnitude cut
  obtain hc | hc | hc := lt_trichotomy d.coeff 0
  · have hm : (d.coeff : ℚ) = -d.magnitude := by
      rw [magnitude, Nat.cast_natAbs, abs_of_neg hc]
      push_cast
      ring
    have hpos : (0 : ℚ) < d.magnitude / tenTo cut :=
      div_pos (by rw [← neg_neg (d.magnitude : ℚ), ← hm]; simpa using hc)
        (by exact_mod_cast tenTo_pos cut)
    rw [hm, neg_div, mode.select_neg_of_locates hlocates hpos, Int.sign_eq_neg_one_of_neg hc,
      show d.isNegative = true by simpa [isNegative] using hc]
    split <;> simp
  · rw [hc, Int.sign_zero, zero_mul, Int.cast_zero, zero_div, mode.select_zero]
  · have hm : (d.coeff : ℚ) = d.magnitude := by
      rw [magnitude, Nat.cast_natAbs, abs_of_pos hc]
    rw [hm, mode.select_of_locates hlocates, Int.sign_eq_one_of_pos hc,
      show d.isNegative = false by simpa [isNegative] using hc.le]
    split <;> simp

/-- **Rounding to a scale goes to the point that the mode selects on the grid of the scale.** -/
theorem toRat_roundToScale (d : Decimal) (s : ℤ) (mode : RoundingMode) :
    (d.roundToScale s mode).toRat = mode.select (d.toRat / unit s) * unit s := by
  rcases le_or_gt d.scale s with h | h
  · have hvalue : (d.roundToScale s mode).toRat = d.toRat := by
      rw [roundToScale, if_pos h]
      exact toRat_withScale_of_le h
    have hgrid : d.toRat / unit s = (d.coeffAt s : ℤ) := by
      rw [← coeffAt_mul_unit d h, mul_div_assoc, div_self (unit_ne_zero s), mul_one]
    rw [hvalue, hgrid, RoundingMode.select_intCast, ← hgrid, div_mul_cancel₀ _ (unit_ne_zero s)]
  · have hscale : (d.roundToScale s mode).scale = s := by rw [roundToScale, if_neg (not_le.mpr h)]
    have hunit : unit s = tenTo (d.scale - s).toNat * unit d.scale := by
      have := tenTo_mul_unit (d.scale - s).toNat s
      rw [show s + ((d.scale - s).toNat : ℤ) = d.scale by omega] at this
      exact_mod_cast this.symm
    rw [toRat, hscale, coeff_roundToScale mode h]
    congr 3
    rw [toRat, hunit, mul_comm (tenTo _ : ℚ), ← div_div, mul_div_assoc,
      div_self (unit_ne_zero d.scale), mul_one]

end Decimal

namespace Context

open Decimal

/-- Rounding to the precision selects on the grid of that many digits. -/
theorem toRat_round (c : Context) (d : Decimal) :
    (c.round d).toRat = c.rounding.select (d.toRat / 10 ^ (d.lead - c.precision))
      * 10 ^ (d.lead - c.precision) := by
  have hvalue : (c.round d).toRat = (d.roundToDigits c.precision c.rounding).toRat := by
    rw [round]
    split
    · next h =>
        rw [toRat_stripFraction, roundToDigits, roundToScale, if_pos (by omega),
          toRat_withScale_of_le (by omega)]
    · exact toRat_stripFraction _
  rw [hvalue, roundToDigits, toRat_roundToScale, unit_eq_zpow,
    show -(d.scale + c.precision - d.digitCount) = d.lead - c.precision by rw [lead]; ring]

/-- **A context rounds once to its precision.** -/
theorem roundsTo_round (c : Context) (d : Decimal) :
    RoundsTo c.rounding c.precision d.toRat (c.round d).toRat := by
  by_cases h : d.coeff = 0
  · refine .inl ⟨toRat_eq_zero.mpr h, ?_⟩
    rw [toRat_round, toRat_eq_zero.mpr h, zero_div, RoundingMode.select_zero, Int.cast_zero,
      zero_mul]
  · exact .inr ⟨d.lead, zpow_lead_le_abs h, abs_lt_zpow_lead h, toRat_round c d⟩

end Context

end Abacus
