import Abacus.Binary64.Basic

/-!
# Binary64/Hypotenuse — the root of a sum of two squares

Computed in doubles, so it may be one unit in the last place off the nearest double, even for small
integers: the plain root is corrected once by the error of its square, and every step of the
correction is rounded. Sides whose squares would leave the range of doubles are scaled first, and a
side too short to matter is only added.
-/

namespace Abacus.Binary64

/-- The root of `a ^ 2 + b ^ 2`, for `a` at least `b`, whose squares neither overflow nor underflow:
the plain root `h`, less the error of `h ^ 2` over `2 * h`. The error is written so that it does not
cancel, in a way that depends on how long `b` is. -/
def correctedRoot (a b : Float) : Float :=
  let h := Float.sqrt (a * a + b * b)
  let error :=
    if h ≤ 2.0 * b then
      let d := h - b
      a * (2.0 * d - a) + (d - 2.0 * (a - b)) * d
    else
      let d := h - a
      2.0 * d * (a - 2.0 * b) + ((4.0 * d - b) * b + d * d)
  h - error / (2.0 * h)

/-- Sides above this are scaled down before they are squared: `2 ^ 511`. -/
def longSide : Float :=
  nearest (twoTo 511) 1

/-- Sides below this are scaled up before they are squared: `2 ^ (-459)`. -/
def shortSide : Float :=
  nearest 1 (twoTo 459)

/-- The factor that sides are scaled down by: `2 ^ (-600)`. -/
def sideScale : Float :=
  nearest 1 (twoTo 600)

/-- A side shorter than this part of the other is only added to it: `2 ^ (-54)`. -/
def negligible : Float :=
  nearest 1 (twoTo 54)

/-- The root of `a ^ 2 + b ^ 2`, for finite `a` at least `b`, both at least zero. -/
def rootOfSquares (a b : Float) : Float :=
  if a > longSide then
    if b ≤ a * negligible then a + b
    else correctedRoot (a * sideScale) (b * sideScale) / sideScale
  else if b < shortSide then
    if a ≥ b / negligible then a + b
    else correctedRoot (a / sideScale) (b / sideScale) * sideScale
  else if b ≤ a * negligible then a + b
  else correctedRoot a b

/-- **The length of the hypotenuse over `x` and `y`.** -/
def hypotenuse (x y : Float) : Float :=
  if x.isInf || y.isInf then Float.ofBits (UInt64.ofNat infinityBits)
  else if x.isNaN || y.isNaN then x + y
  else
    let a := x.abs
    let b := y.abs
    if a < b then rootOfSquares b a else rootOfSquares a b

end Abacus.Binary64
