import Abacus.Decimal.Rounding
import Abacus.Decimal.Arithmetic
import Abacus.Error.Evaluation

/-!
# Context — precision and rounding

A `Context` says how many digits an inexact operation keeps and how it rounds to them. Only `round`
and `divide` look at it. `divide` computes more digits than the answer keeps and marks a remainder by
one more nonzero digit, so that the one rounding at the end sees on which side of every neighbour and
every midpoint the quotient lies.
-/

namespace Abacus

/-- How many digits are kept, and what happens to the rest. -/
structure Context where
  /-- The number of digits that an inexact operation keeps. -/
  precision : Nat
  /-- What happens to the digits that are dropped. -/
  rounding : RoundingMode
deriving DecidableEq

namespace Context

/-- The precision used unless another is asked for: 34 digits. -/
def defaultPrecision : Nat := 34

/-- The largest precision that may be asked for. -/
def maxPrecision : Nat := 1000000

/-- 34 digits, a half going to the even neighbour. -/
instance : Inhabited Context :=
  ⟨⟨defaultPrecision, .halfEven⟩⟩

/-- The context of `p` digits, if `p` is a precision that may be asked for. -/
def ofPrecision? (p : Nat) (mode : RoundingMode) : Option Context :=
  if 0 < p ∧ p ≤ maxPrecision then some ⟨p, mode⟩ else none

/-- `d` without trailing zeros after the point, and with no digits missing before it. Where the scale
is so low that taking off zeros would leave 64 bits, all digits of the integer do not fit in any
memory. -/
def stripFraction (d : Decimal) : Decimal :=
  let n := d.normalized
  if n.scale < 0 then n.withScale 0 else n

/-- **`d` rounded to the precision of the context**, trailing zeros after the point left out. -/
def round (c : Context) (d : Decimal) : Decimal :=
  if d.digitCount ≤ c.precision then stripFraction d
  else stripFraction (d.roundToDigits c.precision c.rounding)

/-- How many digits the numerator gets before the division, so that the quotient has at least two
more than the precision. -/
def guardDigits (c : Context) (a b : Decimal) : Nat :=
  c.precision + b.digitCount + 2 - a.digitCount

/-- **The quotient of `a` and `b`, rounded once to the precision of the context.** It has no answer if
`b` is zero, or if a scale on the way does not fit in 64 bits. -/
def divide (c : Context) (a b : Decimal) : Except EvalError Decimal :=
  if b.isZero then .error .divisionByZero
  else if a.isZero then .ok .zero
  else
    let shift := c.guardDigits a b
    let scale := a.scale - b.scale + shift
    if shift < twoTo 32 ∧ Decimal.ScaleFits (a.scale - b.scale) ∧ Decimal.ScaleFits scale then
      let numerator := a.coeff * tenTo shift
      let quotient := numerator.tdiv b.coeff
      if numerator.tmod b.coeff = 0 then .ok (c.round ⟨quotient, scale⟩)
      else if Decimal.ScaleFits (scale + 1) then
        -- one more digit, away from zero, stands for whatever the division left over
        .ok (c.round ⟨quotient * 10 + a.coeff.sign * b.coeff.sign, scale + 1⟩)
      else .error .exponentOverflow
    else .error .exponentOverflow

end Context

end Abacus
