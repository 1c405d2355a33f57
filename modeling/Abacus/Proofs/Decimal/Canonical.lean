import Abacus.Proofs.Decimal.Arithmetic

/-!
# Proofs/Decimal/Canonical — rounded values are written in one way, and in order

What `Context.round` answers is *canonical*: no digits are missing before the point and no zeros
trail after it.  A value has one canonical form (`IsCanonical.eq_of_toRat_eq`), so whatever is known
of the value that rounding goes to is known of the pair.

About that value everything follows from one fact on the modes: `select` is monotone and leaves
integers where they are, so rounding never goes past a point of the grid that it rounds to
(`grid_le_select`, `select_le_grid`).  The powers of ten at both ends of a decade are such points.
Hence a rounded value is on its own grid, also where a carry takes it into the next decade
(`RoundsTo.self`), and values in different decades stay in order (`RoundsTo.mono`).
-/

namespace Abacus

/-! ## Canonical form -/

namespace Digits

/-- **No zero is left**, if there are few enough for so many rounds. -/
theorem not_ten_dvd_stripBelow : ∀ {k n : ℕ}, ¬ tenTo (twoTo (k + 1)) ∣ n →
    ¬ 10 ∣ (stripBelow k n).1
  | 0, n, h => by
      rw [stripBelow]
      split
      · next hn =>
          have hn' : 10 ∣ n := Nat.dvd_of_mod_eq_zero hn
          exact fun hdvd => h ((Nat.dvd_div_iff_mul_dvd hn').mp hdvd)
      · next hn => exact mt Nat.mod_eq_zero_of_dvd hn
  | k + 1, n, h => by
      rw [stripBelow]
      split
      · next hn =>
          refine not_ten_dvd_stripBelow fun hdvd => h ?_
          rw [twoTo_succ, Nat.two_mul, tenTo_add]
          exact (Nat.dvd_div_iff_mul_dvd (Nat.dvd_of_mod_eq_zero hn)).mp hdvd
      · next hn => exact not_ten_dvd_stripBelow (mt Nat.mod_eq_zero_of_dvd hn)

theorem not_ten_dvd_stripZeros {n : ℕ} (h : n ≠ 0) : ¬ 10 ∣ (stripZeros n).1 := by
  rw [stripZeros]
  split
  · refine not_ten_dvd_stripBelow fun hdvd => ?_
    have hle : tenTo (twoTo (level n)) ≤ tenTo (twoTo (level n + 1)) :=
      tenTo_le (twoTo_le (Nat.le_succ _))
    exact absurd (Nat.le_of_dvd (Nat.pos_of_ne_zero h) hdvd)
      (not_le.mpr ((lt_tenTo_level n).trans_le hle))
  · next hn => exact fun hdvd => hn ⟨Nat.mod_eq_zero_of_dvd hdvd, h⟩

end Digits

namespace Decimal

variable {a b : Decimal}

/-- **Every digit before the point is there, and no zero trails after it.** -/
def IsCanonical (d : Decimal) : Prop :=
  0 ≤ d.scale ∧ (d.scale = 0 ∨ ¬ 10 ∣ d.coeff)

instance (d : Decimal) : Decidable d.IsCanonical :=
  inferInstanceAs (Decidable (_ ∧ _))

theorem not_ten_dvd_normalized (h : a.coeff ≠ 0) : ¬ 10 ∣ a.normalized.coeff := by
  rw [normalized, if_neg h]
  intro hdvd
  have hmagnitude := Int.natAbs_dvd_natAbs.mpr hdvd
  rw [Int.natAbs_mul, Int.natAbs_sign_of_ne_zero h, one_mul] at hmagnitude
  exact Digits.not_ten_dvd_stripZeros (Int.natAbs_ne_zero.mpr h) hmagnitude

theorem isCanonical_stripFraction (d : Decimal) : (Context.stripFraction d).IsCanonical := by
  by_cases h : d.coeff = 0
  · have hzero : Context.stripFraction d = zero := by
      rw [Context.stripFraction, normalized, if_pos h]
      rfl
    rw [hzero]
    decide
  · rw [Context.stripFraction]
    split
    · next hscale =>
        have hwhole : (d.normalized.withScale 0).scale = 0 := by rw [withScale, if_pos hscale.le]
        exact ⟨hwhole.ge, .inl hwhole⟩
    · next hscale => exact ⟨not_lt.mp hscale, .inr (not_ten_dvd_normalized h)⟩

/-- At a finer scale a value ends in zeros, so a canonical form at that scale is at scale zero. -/
theorem IsCanonical.eq_of_scale_le (hb : b.IsCanonical) (ha : 0 ≤ a.scale)
    (h : a.toRat = b.toRat) (hscale : a.scale ≤ b.scale) : a = b := by
  have hcoeff : a.coeff * tenTo (b.scale - a.scale).toNat = b.coeff := by
    have hb' : b.coeffAt b.scale = b.coeff := by rw [coeffAt_eq, sub_self]; exact mul_one _
    rw [← coeffAt_eq, coeffAt_congr h hscale le_rfl, hb']
  obtain ⟨k, hk⟩ : ∃ k : ℕ, b.scale = a.scale + k := ⟨(b.scale - a.scale).toNat, by omega⟩
  rw [hk, add_sub_cancel_left, Int.toNat_natCast] at hcoeff
  cases k with
  | zero =>
    obtain ⟨coeff, scale⟩ := a
    obtain ⟨coeff', scale'⟩ := b
    simp_all [tenTo]
  | succ k =>
    have hzero : (10 : ℤ) ∣ b.coeff := by
      rw [← hcoeff, tenTo_add]
      exact Dvd.dvd.mul_left (by exact_mod_cast Dvd.intro_left (tenTo k) rfl) _
    obtain hwhole | hfraction := hb.2
    · omega
    · exact absurd hzero hfraction

/-- **A value has one canonical form.** -/
theorem IsCanonical.eq_of_toRat_eq (ha : a.IsCanonical) (hb : b.IsCanonical)
    (h : a.toRat = b.toRat) : a = b := by
  obtain hscale | hscale := le_total a.scale b.scale
  · exact hb.eq_of_scale_le ha.1 h hscale
  · exact (ha.eq_of_scale_le hb.1 h.symm hscale).symm

end Decimal

/-! ## Modes are monotone -/

/-- With one tie between the same neighbours, the nearest integer does not fall. -/
theorem nearestOr_mono {x y : ℚ} {tie : ℤ} (hle : x ≤ y) (hfloor : ⌊x⌋ = ⌊y⌋) (hceil : ⌈x⌉ = ⌈y⌉)
    (hlow : ⌊y⌋ ≤ tie) (hhigh : tie ≤ ⌈y⌉) : nearestOr tie x ≤ nearestOr tie y := by
  have hgap : x - ⌊y⌋ ≤ y - ⌊y⌋ := sub_le_sub_right hle _
  rw [nearestOr, nearestOr, hfloor, hceil]
  grind

namespace RoundingMode

variable (mode : RoundingMode) {x y : ℚ}

/-- A mode goes to one of the two neighbours. -/
theorem select_eq_or (x : ℚ) : mode.select x = ⌊x⌋ ∨ mode.select x = ⌈x⌉ := by
  cases mode <;> simp only [select, nearestOr] <;> grind

theorem floor_le_select (x : ℚ) : ⌊x⌋ ≤ mode.select x := by
  obtain h | h := mode.select_eq_or x
  · exact h.ge
  · exact h ▸ Int.floor_le_ceil x

theorem select_le_ceil (x : ℚ) : mode.select x ≤ ⌈x⌉ := by
  obtain h | h := mode.select_eq_or x
  · exact h ▸ Int.floor_le_ceil x
  · exact h.le

/-- Between the same two neighbours a mode keeps values in order. -/
theorem select_mono_of_floor_eq (hle : x ≤ y) (hfloor : ⌊x⌋ = ⌊y⌋) (hx : ⌊x⌋ < x) :
    mode.select x ≤ mode.select y := by
  have hnext : ∀ {z : ℚ}, ⌊z⌋ < z → ⌈z⌉ = ⌊z⌋ + 1 := fun {z} hz =>
    le_antisymm (Int.ceil_le_floor_add_one z) (Int.lt_ceil.mpr hz)
  have hy : (⌊y⌋ : ℚ) < y := hfloor ▸ hx.trans_le hle
  have hceil : ⌈x⌉ = ⌈y⌉ := by rw [hnext hx, hnext hy, hfloor]
  have hsign : 0 ≤ x ↔ 0 ≤ y := by
    rw [← Int.floor_nonneg, hfloor, Int.floor_nonneg]
  have hneighbours := Int.floor_le_ceil y
  cases mode <;> simp only [select, hfloor, hceil, hsign, le_refl]
  all_goals
    refine nearestOr_mono hle hfloor hceil ?_ ?_ <;> split_ifs <;> simp [hneighbours]

/-- **A mode keeps values in order.** -/
theorem select_mono (hle : x ≤ y) : mode.select x ≤ mode.select y := by
  obtain hfloor | hfloor := (Int.floor_le_floor hle).lt_or_eq
  · calc mode.select x ≤ ⌈x⌉ := mode.select_le_ceil x
      _ ≤ ⌊x⌋ + 1 := Int.ceil_le_floor_add_one x
      _ ≤ ⌊y⌋ := hfloor
      _ ≤ mode.select y := mode.floor_le_select y
  · obtain hx | hx := (Int.floor_le x).lt_or_eq
    · exact mode.select_mono_of_floor_eq hle hfloor hx
    · rw [← hx, mode.select_intCast, hfloor]
      exact mode.floor_le_select y

/-- **Rounding does not go below a point of the grid** that the value reaches. -/
theorem grid_le_select {q : ℚ} {n j : ℤ} (h : n * 10 ^ j ≤ q) :
    (n * 10 ^ j : ℚ) ≤ mode.select (q / 10 ^ j) * 10 ^ j := by
  have hpos : (0 : ℚ) < 10 ^ j := by positivity
  have hle := mode.select_mono ((le_div_iff₀ hpos).mpr h)
  rw [mode.select_intCast] at hle
  exact mul_le_mul_of_nonneg_right (Int.cast_le.mpr hle) hpos.le

/-- **Rounding does not go above a point of the grid** that the value does not exceed. -/
theorem select_le_grid {q : ℚ} {n j : ℤ} (h : q ≤ n * 10 ^ j) :
    mode.select (q / 10 ^ j) * 10 ^ j ≤ (n * 10 ^ j : ℚ) := by
  have hpos : (0 : ℚ) < 10 ^ j := by positivity
  have hle := mode.select_mono ((div_le_iff₀ hpos).mpr h)
  rw [mode.select_intCast] at hle
  exact mul_le_mul_of_nonneg_right (Int.cast_le.mpr hle) hpos.le

end RoundingMode

/-! ## The laws of rounding to digits -/

/-- The power of ten at the upper end of a decade is on the grid of its `p` digits. -/
theorem zpow_eq_grid (p : ℕ) (k : ℤ) : (10 : ℚ) ^ k = ((10 ^ p : ℤ) : ℚ) * 10 ^ (k - p) := by
  push_cast
  rw [← zpow_natCast, ← zpow_add₀ (by norm_num), add_sub_cancel]

/-- So is the one at the lower end, if there is a digit. -/
theorem zpow_pred_eq_grid {p : ℕ} (hp : 0 < p) (k : ℤ) :
    (10 : ℚ) ^ (k - 1) = ((10 ^ (p - 1) : ℤ) : ℚ) * 10 ^ (k - p) := by
  rw [zpow_eq_grid (p - 1), Nat.cast_pred hp]
  congr 2
  ring

namespace RoundsTo

variable {mode : RoundingMode} {p : ℕ} {q q' r r' : ℚ}

theorem nonneg (h : RoundsTo mode p q r) (hq : 0 ≤ q) : 0 ≤ r := by
  obtain ⟨-, rfl⟩ | ⟨k, -, -, rfl⟩ := h
  · exact le_rfl
  · simpa using mode.grid_le_select (n := 0) (j := k - p) (by simpa using hq)

theorem nonpos (h : RoundsTo mode p q r) (hq : q ≤ 0) : r ≤ 0 := by
  obtain ⟨-, rfl⟩ | ⟨k, -, -, rfl⟩ := h
  · exact le_rfl
  · simpa using mode.select_le_grid (n := 0) (j := k - p) (by simpa using hq)

/-- **A rounded value stays in its decade**, the upper end included. -/
theorem mem_decade (hp : 0 < p) {k : ℤ} (hlow : 10 ^ (k - 1) ≤ |q|) (hhigh : |q| < 10 ^ k)
    (hr : r = mode.select (q / 10 ^ (k - p)) * 10 ^ (k - p)) :
    10 ^ (k - 1) ≤ |r| ∧ |r| ≤ 10 ^ k := by
  have hstart := zpow_pred_eq_grid hp k
  have hend := zpow_eq_grid p k
  obtain hq | hq := le_total 0 q
  · rw [abs_of_nonneg hq] at hlow hhigh
    have hlow' : 10 ^ (k - 1) ≤ r := by
      rw [hstart] at hlow ⊢
      exact hr ▸ mode.grid_le_select hlow
    have hhigh' : r ≤ 10 ^ k := by
      rw [hend] at hhigh ⊢
      exact hr ▸ mode.select_le_grid hhigh.le
    rw [abs_of_nonneg ((zpow_nonneg (by norm_num) _).trans hlow')]
    exact ⟨hlow', hhigh'⟩
  · -- the ends of the decade below zero are on the grid as well
    rw [abs_of_nonpos hq] at hlow hhigh
    have hlow' : r ≤ -10 ^ (k - 1) := by
      rw [le_neg, hstart, ← neg_mul, ← Int.cast_neg] at hlow
      rw [hstart, ← neg_mul, ← Int.cast_neg]
      exact hr ▸ mode.select_le_grid hlow
    have hhigh' : -10 ^ k ≤ r := by
      rw [neg_lt, hend, ← neg_mul, ← Int.cast_neg] at hhigh
      rw [hend, ← neg_mul, ← Int.cast_neg]
      exact hr ▸ mode.grid_le_select hhigh.le
    rw [abs_of_nonpos (hlow'.trans (neg_nonpos.mpr (zpow_nonneg (by norm_num) _)))]
    exact ⟨le_neg.mp hlow', neg_le.mp hhigh'⟩

/-- **A rounded value is on its own grid.**  If a carry took it to the end of its decade, the grid
is that of the next one. -/
theorem self (hp : 0 < p) (h : RoundsTo mode p q r) : RoundsTo mode p r r := by
  obtain ⟨-, rfl⟩ | ⟨k, hlow, hhigh, hr⟩ := h
  · exact .inl ⟨rfl, rfl⟩
  · obtain ⟨hlow', hhigh'⟩ := mem_decade hp hlow hhigh hr
    have hfixed : ∀ (n j : ℤ), (n * 10 ^ j : ℚ) = mode.select (n * 10 ^ j / 10 ^ j) * 10 ^ j := by
      intro n j
      rw [mul_div_cancel_right₀ _ (zpow_ne_zero j (by norm_num)), mode.select_intCast]
    obtain hlt | heq := hhigh'.lt_or_eq
    · refine .inr ⟨k, hlow', hlt, ?_⟩
      rw [hr]
      exact hfixed _ _
    · have hnext : (10 : ℚ) ^ k < 10 ^ (k + 1) :=
        zpow_lt_zpow_right₀ (by norm_num) (lt_add_one k)
      refine .inr ⟨k + 1, ?_, heq ▸ hnext, ?_⟩
      · rw [add_sub_cancel_right, heq]
      · obtain ⟨n, hn⟩ : ∃ n : ℤ, r = n * 10 ^ (k + 1 - p) := by
          have hend := zpow_pred_eq_grid hp (k + 1)
          rw [add_sub_cancel_right] at hend
          have hpow : (0 : ℚ) < 10 ^ k := by positivity
          obtain h | h := abs_eq_abs.mp (heq.trans (abs_of_pos hpow).symm)
          · exact ⟨_, h.trans hend⟩
          · exact ⟨-10 ^ (p - 1), by rw [h, hend]; push_cast; ring⟩
        rw [hn]
        exact hfixed _ _

/-- The smaller of two magnitudes is in the lower decade. -/
theorem decade_le {k k' : ℤ} (hlow : 10 ^ (k - 1) ≤ |q|) (hhigh' : |q'| < 10 ^ k')
    (hle : |q| ≤ |q'|) : k ≤ k' := by
  have hlt : (10 : ℚ) ^ (k - 1) < 10 ^ k' := hlow.trans_lt (hle.trans_lt hhigh')
  have := (zpow_lt_zpow_iff_right₀ (by norm_num)).mp hlt
  omega

/-- **Rounding keeps values in order**, within a decade and across decades. -/
theorem mono (hp : 0 < p) (h : RoundsTo mode p q r) (h' : RoundsTo mode p q' r') (hle : q ≤ q') :
    r ≤ r' := by
  obtain ⟨rfl, rfl⟩ | ⟨k, hlow, hhigh, hr⟩ := id h
  · exact h'.nonneg hle
  obtain ⟨rfl, rfl⟩ | ⟨k', hlow', hhigh', hr'⟩ := id h'
  · exact h.nonpos hle
  obtain rfl | hne := eq_or_ne k k'
  · have hpos : (0 : ℚ) < 10 ^ (k - p) := by positivity
    rw [hr, hr']
    exact mul_le_mul_of_nonneg_right
      (Int.cast_le.mpr (mode.select_mono (div_le_div_of_nonneg_right hle hpos.le))) hpos.le
  -- in different decades, the end of the one and the start of the other come between
  have hacross : ∀ {j j' : ℤ}, j < j' → (10 : ℚ) ^ j ≤ 10 ^ (j' - 1) := fun hj =>
    zpow_le_zpow_right₀ (by norm_num) (by omega)
  obtain ⟨hstart, hend⟩ := mem_decade hp hlow hhigh hr
  obtain ⟨hstart', hend'⟩ := mem_decade hp hlow' hhigh' hr'
  obtain hq | hq := le_total 0 q
  · have hlt : k < k' := by
      refine lt_of_le_of_ne (decade_le hlow hhigh' ?_) hne
      rwa [abs_of_nonneg hq, abs_of_nonneg (hq.trans hle)]
    rw [abs_of_nonneg (h.nonneg hq)] at hend
    rw [abs_of_nonneg (h'.nonneg (hq.trans hle))] at hstart'
    exact hend.trans ((hacross hlt).trans hstart')
  obtain hq' | hq' := le_total 0 q'
  · exact (h.nonpos hq).trans (h'.nonneg hq')
  · have hlt : k' < k := by
      refine lt_of_le_of_ne (decade_le hlow' hhigh ?_) hne.symm
      rwa [abs_of_nonpos hq, abs_of_nonpos hq', neg_le_neg_iff]
    rw [abs_of_nonpos (h.nonpos hq)] at hstart
    rw [abs_of_nonpos (h'.nonpos hq')] at hend'
    exact neg_le_neg_iff.mp (hend'.trans ((hacross hlt).trans hstart))

end RoundsTo

namespace Context

open Decimal

theorem isCanonical_round (c : Context) (d : Decimal) : (c.round d).IsCanonical := by
  rw [round]
  split
  · exact isCanonical_stripFraction _
  · exact isCanonical_stripFraction _

/-- **What rounding to digits does.**  It goes to the value that the mode selects among those of so
many digits, and writes it in canonical form; so it does not see how its operand is written, does
nothing the second time, and keeps values in order. -/
theorem round_canonical_mono (c : Context) (hp : 0 < c.precision) (d : Decimal) :
    RoundsTo c.rounding c.precision d.toRat (c.round d).toRat ∧
    (c.round d).IsCanonical ∧
    (∀ d', d'.toRat = d.toRat → c.round d' = c.round d) ∧
    c.round (c.round d) = c.round d ∧
    (∀ d', d.toRat ≤ d'.toRat → (c.round d).toRat ≤ (c.round d').toRat) := by
  have hrounds := c.roundsTo_round d
  refine ⟨hrounds, c.isCanonical_round d, fun d' heq => ?_, ?_, fun d' hle => ?_⟩
  · refine (c.isCanonical_round d').eq_of_toRat_eq (c.isCanonical_round d) ?_
    exact (heq ▸ c.roundsTo_round d').unique hrounds
  · refine (c.isCanonical_round _).eq_of_toRat_eq (c.isCanonical_round d) ?_
    exact (c.roundsTo_round (c.round d)).unique (hrounds.self hp)
  · exact hrounds.mono hp (c.roundsTo_round d') hle

/-- 9.950 goes to 10 with a carry, to two digits; so does 9.95, and 10 stays there. -/
theorem round_canonical_mono_carry :
    round ⟨2, .halfUp⟩ ⟨9950, 3⟩ = ⟨10, 0⟩ ∧ round ⟨2, .halfUp⟩ ⟨995, 2⟩ = ⟨10, 0⟩ ∧
      round ⟨2, .halfUp⟩ ⟨10, 0⟩ = ⟨10, 0⟩ ∧
      (round ⟨2, .halfUp⟩ ⟨-12345, 3⟩).toRat ≤ toRat ⟨10, 0⟩ := by
  have hcarry : round ⟨2, .halfUp⟩ ⟨9950, 3⟩ = ⟨10, 0⟩ := by decide
  obtain ⟨-, -, hequal, hagain, -⟩ := round_canonical_mono ⟨2, .halfUp⟩ (by decide) ⟨9950, 3⟩
  obtain ⟨-, -, -, -, hmono⟩ := round_canonical_mono ⟨2, .halfUp⟩ (by decide) ⟨-12345, 3⟩
  have hle : toRat ⟨-12345, 3⟩ ≤ toRat ⟨9950, 3⟩ := atMost_iff.mp (by decide)
  have hsame : toRat ⟨995, 2⟩ = toRat ⟨9950, 3⟩ := equal_iff.mp (by decide)
  refine ⟨hcarry, (hequal _ hsame).trans hcarry, hcarry ▸ hagain, hcarry ▸ hmono _ hle⟩

end Context

end Abacus
