import Abacus.Decimal.Order

/-!
# Decimal/Arithmetic — exact sums, differences, products and remainders

Every operation here is exact; what differs between them is the scale of the answer. The operators of
the language (`add`, `sub`, `mul`, `rem`) cut a few corners when an operand is zero or one, and a
running total (`addAligned`, `mulPlain`) cuts others. The scale of a product may leave the 64 bits that
hold a scale; what happens then is said where the operations are given to the language.

`toRat_next` is the fact a counting loop rests on: the next index is one more.
-/

namespace Abacus.Decimal

/-- The sum at the finer of the two scales. -/
def addAligned (a b : Decimal) : Decimal :=
  let s := max a.scale b.scale
  ⟨a.coeffAt s + b.coeffAt s, s⟩

/-- `a` written with up to fifteen more digits after the point, as far as `b` has them. -/
def widenTowards (a b : Decimal) : Decimal :=
  let s := a.scale + min (max (b.scale - a.scale) 0) 15
  ⟨a.coeffAt s, s⟩

/-- The sum, at the finer of the two scales; but adding zero widens the other operand by at most
fifteen digits. -/
def add (a b : Decimal) : Decimal :=
  if b.isZero then a.widenTowards b
  else if a.isZero then b.widenTowards a
  else a.addAligned b

/-- The difference, at the finer of the two scales. -/
def sub (a b : Decimal) : Decimal :=
  let s := max a.scale b.scale
  ⟨a.coeffAt s - b.coeffAt s, s⟩

/-- Whether `d` is one, written with at most 38 digits after the point. -/
def isOne (d : Decimal) : Bool :=
  0 ≤ d.scale && d.scale ≤ 38 && d.coeff == tenTo d.scale.toNat

/-- The product, at the sum of the scales; but a factor of one leaves the other without its trailing
zeros. -/
def mul (a b : Decimal) : Decimal :=
  if a.isOne then b.normalized
  else if b.isOne then a.normalized
  else ⟨a.coeff * b.coeff, a.scale + b.scale⟩

/-- The product of a running total with its next factor, at the sum of the scales; but a factor of one
leaves the other as it is written. -/
def mulPlain (a b : Decimal) : Decimal :=
  if a.isOne then b
  else if b.isOne then a
  else ⟨a.coeff * b.coeff, a.scale + b.scale⟩

/-- The remainder of a division that truncates towards zero, at the finer of the two scales; it has
the sign of `a`. -/
def rem (a b : Decimal) : Decimal :=
  let s := max a.scale b.scale
  ⟨(a.coeffAt s).tmod (b.coeffAt s), s⟩

/-- The number after `d` in a count. Counting on from zero forgets the scale of that zero. -/
def next (d : Decimal) : Decimal :=
  if d.isZero then one else d.addAligned one

/-! ## The values -/

/-- **Aligned sums are exact.** -/
theorem toRat_addAligned (a b : Decimal) : (a.addAligned b).toRat = a.toRat + b.toRat := by
  rw [addAligned, toRat, Rat.intCast_add, Rat.add_mul, coeffAt_mul_unit a (Int.le_max_left ..),
    coeffAt_mul_unit b (Int.le_max_right ..)]

/-- **Counting goes up by one.** -/
theorem toRat_next (d : Decimal) : d.next.toRat = d.toRat + 1 := by
  rw [next]
  split
  · next h =>
      have hc : d.coeff = 0 := by simpa [isZero] using h
      rw [toRat_eq_zero.mpr hc, one, toRat_ofInt, Rat.zero_add]
      rfl
  · rw [toRat_addAligned, one, toRat_ofInt]
    rfl

end Abacus.Decimal
