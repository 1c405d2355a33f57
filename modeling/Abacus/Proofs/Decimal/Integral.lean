import Abacus.Proofs.Decimal.Arithmetic
import Abacus.Proofs.Evaluation.Basic

/-!
# Proofs/Decimal/Integral — the integers next to a decimal

The grid of scale zero is the integers, so rounding to that scale answers the integer that the mode
selects, and nothing of the scale that the operand came with is left (`roundToScale_zero`).  With
that, `floor` and `ceiling` are the floor and the ceiling of the value, and `round` is the floor of
the value and a half: `eval_floor_ceiling_round`.
-/

namespace Abacus

/-! ## Rounding to scale zero -/

namespace Decimal

theorem scale_roundToScale (d : Decimal) (s : ℤ) (mode : RoundingMode) :
    (d.roundToScale s mode).scale = s := by
  rw [roundToScale]
  split
  · next h => rw [withScale, if_pos h]
  · rfl

/-- **Rounding to scale zero answers the integer that the mode selects.** -/
theorem roundToScale_zero (d : Decimal) (mode : RoundingMode) :
    d.roundToScale 0 mode = ofInt (mode.select d.toRat) := by
  have hscale := d.scale_roundToScale 0 mode
  have hvalue := d.toRat_roundToScale 0 mode
  rw [toRat, hscale, unit_zero, mul_one, div_one, mul_one, Int.cast_inj] at hvalue
  rw [ofInt, ← hvalue]
  exact congrArg (Decimal.mk _) hscale

theorem floor_eq (d : Decimal) : d.floor = ofInt ⌊d.toRat⌋ :=
  d.roundToScale_zero .floor

theorem ceiling_eq (d : Decimal) : d.ceiling = ofInt ⌈d.toRat⌉ :=
  d.roundToScale_zero .ceiling

theorem roundHalf_eq (d : Decimal) : d.roundHalf = ofInt ⌊d.toRat + 1 / 2⌋ := by
  have hhalf : toRat ⟨5, 1⟩ = 1 / 2 := by
    rw [toRat, unit_eq_zpow]
    norm_num
  rw [roundHalf, floor_eq, toRat_addAligned, hhalf]

end Decimal

/-! ## The functions -/

namespace Expr

variable (x : Decimal) (s : Session)

theorem eval_floor : (call .floor [.number x]).eval s = (.ok (.ofInt ⌊x.toRat⌋), s) := by
  rw [eval_call_number rfl, Decimal.floor_eq]

theorem eval_ceiling : (call .ceiling [.number x]).eval s = (.ok (.ofInt ⌈x.toRat⌉), s) := by
  rw [eval_call_number rfl, Decimal.ceiling_eq]

theorem eval_round :
    (call .round [.number x]).eval s = (.ok (.ofInt ⌊x.toRat + 1 / 2⌋), s) := by
  rw [eval_call_number rfl, Decimal.roundHalf_eq]

/-- The ceiling is the floor of the opposite, with its sign turned. -/
theorem eval_neg_floor_neg :
    (unary .minus (.call .floor [.unary .minus (.number x)])).eval s =
      (.ok (.ofInt ⌈x.toRat⌉), s) := by
  have hfloor : evalWithin (nestingLimit s.env) (.call .floor [.unary .minus (.number x)]) s =
      (.ok (.ofInt (-⌈x.toRat⌉)), s) := by
    rw [evalWithin_call_unary rfl (evalWithin_minus (evalWithin_number _ x s)), Decimal.floor_eq,
      Decimal.toRat_neg, Int.floor_neg]
  rw [eval, evalWithin_minus hfloor, Decimal.neg, Decimal.ofInt, neg_neg, Decimal.ofInt]

/-- **`floor`, `ceiling` and `round` are exact**, whatever the scale of their operand is: they
answer the integers at scale zero that lie next to it in their directions.  So the ceiling is the
floor of the opposite with its sign turned, and each of the three is the operand itself exactly when
that is an integer. -/
theorem eval_floor_ceiling_round (x : Decimal) (s : Session) :
    ∃ f c r : ℤ,
      ((call .floor [.number x]).eval s = (.ok (.ofInt f), s) ∧
        f ≤ x.toRat ∧ x.toRat < f + 1) ∧
      ((call .ceiling [.number x]).eval s = (.ok (.ofInt c), s) ∧
        c - 1 < x.toRat ∧ x.toRat ≤ c) ∧
      ((call .round [.number x]).eval s = (.ok (.ofInt r), s) ∧
        r ≤ x.toRat + 1 / 2 ∧ x.toRat + 1 / 2 < r + 1) ∧
      (call .ceiling [.number x]).eval s =
        (unary .minus (.call .floor [.unary .minus (.number x)])).eval s ∧
      (x.toRat = f ↔ ∃ n : ℤ, x.toRat = n) ∧
      (x.toRat = c ↔ ∃ n : ℤ, x.toRat = n) ∧
      (x.toRat = r ↔ ∃ n : ℤ, x.toRat = n) := by
  refine ⟨⌊x.toRat⌋, ⌈x.toRat⌉, ⌊x.toRat + 1 / 2⌋,
    ⟨eval_floor x s, Int.floor_le _, Int.lt_floor_add_one _⟩,
    ⟨eval_ceiling x s, sub_lt_iff_lt_add.mpr (Int.ceil_lt_add_one _), Int.le_ceil _⟩,
    ⟨eval_round x s, Int.floor_le _, Int.lt_floor_add_one _⟩,
    (eval_ceiling x s).trans (eval_neg_floor_neg x s).symm,
    ⟨fun h => ⟨_, h⟩, ?_⟩, ⟨fun h => ⟨_, h⟩, ?_⟩, ⟨fun h => ⟨_, h⟩, ?_⟩⟩
  · rintro ⟨n, hn⟩
    rw [hn, Int.floor_intCast]
  · rintro ⟨n, hn⟩
    rw [hn, Int.ceil_intCast]
  · rintro ⟨n, hn⟩
    have hhalf : ⌊(1 / 2 : ℚ)⌋ = 0 := by norm_num
    rw [hn, Int.floor_intCast_add, hhalf, add_zero]

-- a digit far behind the point is not lost on the way to the next integer
example : (Decimal.floor ⟨-1, 100⟩, Decimal.ceiling ⟨-1, 100⟩, Decimal.roundHalf ⟨-25, 1⟩) =
    (⟨-1, 0⟩, ⟨0, 0⟩, ⟨-2, 0⟩) := by
  decide

end Expr

end Abacus
