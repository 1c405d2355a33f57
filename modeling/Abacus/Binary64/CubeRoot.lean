import Abacus.Binary64.Basic

/-!
# Binary64/CubeRoot — cube roots, correctly rounded

The cube root of a double is the root of an integer times a power of two. The integer root is taken
with many more bits than a mantissa has, and one last bit records whether it left a remainder; so the
one rounding at the end sees on which side of every midpoint the exact root lies.
-/

namespace Abacus.Binary64

/-- The cube root, rounded down: one bit for every three bits of `n`. -/
def cbrtFloor (n : Nat) : Nat :=
  if n = 0 then 0
  else
    let r := 2 * cbrtFloor (n / 8)
    if (r + 1) * (r + 1) * (r + 1) ≤ n then r + 1 else r
termination_by n
decreasing_by omega

/-- Twice `root`, or one more if the root is not exact. -/
def withRemainderBit (root : Nat) (exact : Bool) : Nat :=
  if exact then 2 * root else 2 * root + 1

/-- The double nearest to `n * 2 ^ e`. -/
def nearestScaled (n : Nat) (e : Int) : Float :=
  if 0 ≤ e then nearest (n * twoTo e.toNat) 1 else nearest n (twoTo (-e).toNat)

/-- The double nearest to the cube root of `n * 8 ^ u`. -/
def nearestCbrt (n : Nat) (u : Int) : Float :=
  let scaled := n * twoTo 192
  let root := cbrtFloor scaled
  nearestScaled (withRemainderBit root (root * root * root == scaled)) (u - 65)

/-- **The double nearest to the cube root of `x`.** -/
def cubeRoot (x : Float) : Float :=
  match decode x.toBits with
  | .finite negative m q =>
    -- the exponent in threes, rounded down
    let third := q / 3
    let root := nearestCbrt (m * twoTo (q - 3 * third).toNat) third
    if negative then -root else root
  | _ => x

end Abacus.Binary64
