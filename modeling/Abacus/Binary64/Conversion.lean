import Abacus.Decimal.Order
import Abacus.Binary64.Shortest

/-!
# Binary64/Conversion — between decimals and doubles

`toFloat` is not the nearest double for every decimal: a number with a positive power of ten is the
product of its digits with that power, both rounded, and a long coefficient is cut before it is
converted. `ofFloat?` takes the shortest decimal that reads back, so it has at most 17 digits.
-/

namespace Abacus

/-- The doubles that no decimal stands for. -/
inductive NonFinite where
  | notANumber
  | positiveInfinity
  | negativeInfinity
deriving DecidableEq

/-- How a double without a decimal is shown. -/
def NonFinite.text : NonFinite → String
  | .notANumber => "NaN"
  | .positiveInfinity => "inf"
  | .negativeInfinity => "-inf"

namespace Decimal

/-- The shortest decimal that reads back as the double `x`. -/
def ofFloat? (x : Float) : Except NonFinite Decimal :=
  match Binary64.decode x.toBits with
  | .notANumber => .error .notANumber
  | .infinite negative => .error (if negative then .negativeInfinity else .positiveInfinity)
  | .finite negative m q =>
    if m = 0 then .ok .zero
    else
      let (c, p) := Binary64.shortest m q
      .ok ⟨if negative then -c else c, -p⟩

/-- `r * a ^ e`, by squaring `a` while `e` is halved; every product is rounded. -/
def timesPower (r a : Float) (e : Nat) : Float :=
  let r := if e % 2 = 1 then r * a else r
  if h : e / 2 = 0 then r else timesPower r (a * a) (e / 2)
termination_by e
decreasing_by omega

/-- How many groups of 19 digits a coefficient loses before it is converted: about 25 digits stay. -/
def cutGroups (n : Nat) : Nat :=
  let digits := (Float.ofNat (Nat.log2 n + 2) * 0.30102999566398119521373889472449302676).floor
  (digits.toUInt64.toNat - 25) / 19

/-- The largest power of ten, up or down, that a conversion looks at. -/
def maxPower : Int := 2147483647

/-- The double for `n * 10 ^ (-scale)`, possibly infinite. -/
def magnitudeToFloat (n : Nat) (scale : Int) : Float :=
  if scale = 0 then Binary64.nearest n 1
  else
    let cut := 19 * cutGroups n
    let n := Digits.dropLast n cut
    let e := cut - scale
    if maxPower < e.natAbs then Float.ofBits (UInt64.ofNat Binary64.infinityBits)
    else if 0 ≤ e then Binary64.nearest n 1 * timesPower 1.0 10.0 e.toNat
    -- everything below `10 ^ (-330)` rounds to zero
    else if Digits.count n + e < -330 then 0.0
    else Binary64.nearest n (tenTo (-e).toNat)

/-- The double for `d`, unless that is infinite. -/
def toFloat? (d : Decimal) : Option Float :=
  let x := if d.isZero then 0.0 else magnitudeToFloat d.magnitude d.scale
  if x.isFinite then some (if d.isNegative then -x else x) else none

end Decimal

end Abacus
