import Abacus.Digits

/-!
# Decimal/Basic — decimal numbers as an integer and a scale

A `Decimal` is the pair of an integer `coeff` and a `scale`, and means `coeff * 10 ^ (-scale)`. The
pair is *not* kept in lowest terms: `2`, `2.0` and `20e-1` are three decimals with one value, and the
operations say which of them they return. `toRat` is the value, and what two decimals share when they
are equal as numbers.

The scale is any integer here. Operations that must answer a decimal whose scale fits in 64 bits ask
`ScaleFits` first.
-/

namespace Abacus

/-- The number `coeff * 10 ^ (-scale)`, together with this way to write it. -/
structure Decimal where
  /-- All digits of the number, with its sign. -/
  coeff : Int
  /-- How many of the digits stand after the point; negative if zeros are to be added. -/
  scale : Int
deriving DecidableEq

namespace Decimal

/-- What a one in the last place is worth at scale `s`: `10 ^ (-s)`. -/
def unit (s : Int) : Rat :=
  Rat.zpow 10 (-s)

/-- **The value of a decimal.** -/
def toRat (d : Decimal) : Rat :=
  d.coeff * unit d.scale

/-- The integer `n`, with no digits after the point. -/
def ofInt (n : Int) : Decimal :=
  ⟨n, 0⟩

/-- Truth as a number. -/
def ofBool (b : Bool) : Decimal :=
  ofInt (if b then 1 else 0)

/-- Zero, at scale zero. -/
def zero : Decimal :=
  ofInt 0

/-- One, at scale zero. -/
def one : Decimal :=
  ofInt 1

/-- Whether the value is zero, at whatever scale. -/
def isZero (d : Decimal) : Bool :=
  d.coeff == 0

/-- Whether the value is below zero. -/
def isNegative (d : Decimal) : Bool :=
  d.coeff < 0

/-- The digits of a decimal as a natural number, its sign left out. -/
def magnitude (d : Decimal) : Nat :=
  d.coeff.natAbs

/-- How many digits a decimal is written with; zero has one. -/
def digitCount (d : Decimal) : Nat :=
  Digits.count d.magnitude

/-- The decimal with its sign turned, at the same scale. -/
def neg (d : Decimal) : Decimal :=
  ⟨-d.coeff, d.scale⟩

/-- The decimal without its sign, at the same scale. -/
def abs (d : Decimal) : Decimal :=
  ⟨d.magnitude, d.scale⟩

/-- The scales that fit in a signed word of 64 bits. -/
def ScaleFits (s : Int) : Prop :=
  -9223372036854775808 ≤ s ∧ s ≤ 9223372036854775807

instance (s : Int) : Decidable (ScaleFits s) :=
  inferInstanceAs (Decidable (_ ∧ _))

/-! ## Writing a value at another scale -/

/-- The coefficient that writes `d` at scale `s`, for `s` at least `d.scale`. -/
def coeffAt (d : Decimal) (s : Int) : Int :=
  -- zero needs no power of ten, however far away the scale is
  if d.coeff = 0 then 0 else d.coeff * tenTo (s - d.scale).toNat

/-- `d` written with `s` digits after the point; digits that have no place there are dropped. -/
def withScale (d : Decimal) (s : Int) : Decimal :=
  if d.scale ≤ s then ⟨d.coeffAt s, s⟩
  else ⟨d.coeff.sign * Digits.dropLast d.magnitude (d.scale - s).toNat, s⟩

/-- `d` without trailing zeros; the scale of a round number goes below zero, and zero becomes the
integer zero. -/
def normalized (d : Decimal) : Decimal :=
  if d.coeff = 0 then
    zero
  else
    let stripped := Digits.stripZeros d.magnitude
    ⟨d.coeff.sign * stripped.1, d.scale - stripped.2⟩

/-! ## Integers among the decimals -/

/-- Whether the value is an integer. -/
def isInteger (d : Decimal) : Bool :=
  d.scale ≤ 0 || Digits.takeLast d.magnitude d.scale.toNat == 0

/-- The integer part: digits after the point are dropped. -/
def truncate (d : Decimal) : Int :=
  (d.withScale 0).coeff

/-- The value as an integer, if it is one. -/
def toInt? (d : Decimal) : Option Int :=
  if d.isInteger then some d.truncate else none

/-- The value as an integer of 32 bits with a sign, if it is one. -/
def toInt32? (d : Decimal) : Option Int :=
  d.toInt?.filter fun n => -2147483648 ≤ n ∧ n ≤ 2147483647

/-! ## The value is kept -/

theorem unit_pos (s : Int) : 0 < unit s :=
  Rat.zpow_pos (by decide)

theorem unit_add (s t : Int) : unit (s + t) = unit s * unit t := by
  rw [unit, Int.neg_add]
  exact Rat.zpow_add (by decide) (-s) (-t)

/-- Going to a scale finer by `k` makes the unit smaller by `tenTo k`. -/
theorem tenTo_mul_unit (k : Nat) (s : Int) : ((tenTo k : Int) : Rat) * unit (s + k) = unit s := by
  have hk : ((tenTo k : Int) : Rat) = unit (-k) := by
    rw [unit, Int.neg_neg]
    exact Rat.natCast_pow 10 k
  rw [hk, ← unit_add]
  congr 1
  omega

theorem coeffAt_eq (d : Decimal) (s : Int) :
    d.coeffAt s = d.coeff * tenTo (s - d.scale).toNat := by
  rw [coeffAt]
  split
  · next h => rw [h, Int.zero_mul]
  · rfl

/-- **A coefficient at a finer scale writes the same value.** -/
theorem coeffAt_mul_unit (d : Decimal) {s : Int} (h : d.scale ≤ s) :
    (d.coeffAt s : Rat) * unit s = d.toRat := by
  have hs : s = d.scale + (s - d.scale).toNat := by omega
  rw [coeffAt_eq, Rat.intCast_mul, Rat.mul_assoc, toRat]
  congr 1
  generalize (s - d.scale).toNat = k at hs
  rw [hs]
  exact tenTo_mul_unit k d.scale

@[simp] theorem toRat_ofInt (n : Int) : (ofInt n).toRat = n := by
  rw [toRat, ofInt]
  exact Rat.mul_one _

end Decimal

end Abacus
