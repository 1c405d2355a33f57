import Abacus.Power

/-!
# Binary64/Basic — 64-bit floating-point numbers and the rationals they stand for

A finite double of magnitude `m * 2 ^ q` is stored as a mantissa of 53 bits and an exponent of eleven.
`decode` takes the stored word apart, and `nearest` finds the double closest to a quotient of natural
numbers, ties going to the even mantissa. Both work on exact integers.
-/

namespace Abacus.Binary64

/-- The exponent of the finest grid that doubles lie on. -/
def minExponent : Int := -1074

/-- The stored word of positive infinity. -/
def infinityBits : Nat := 0x7FF0000000000000

/-- A stored word, taken apart. -/
inductive Decoded where
  /-- The number `mantissa * 2 ^ exponent`, with its sign. -/
  | finite (negative : Bool) (mantissa : Nat) (exponent : Int)
  | infinite (negative : Bool)
  | notANumber
deriving DecidableEq

/-- What a stored word stands for. -/
def decode (bits : UInt64) : Decoded :=
  let n := bits.toNat
  let negative := n / twoTo 63 == 1
  let exponent : Nat := n / twoTo 52 % twoTo 11
  let fraction : Nat := n % twoTo 52
  if exponent = 2047 then
    if fraction = 0 then .infinite negative else .notANumber
  else if exponent = 0 then .finite negative fraction minExponent
  else .finite negative (twoTo 52 + fraction) (minExponent + exponent - 1)

/-- The quotient of two natural numbers, a half going to the even neighbour. -/
def divideNearest (num den : Nat) : Nat :=
  let q := num / den
  match compare (2 * (num % den)) den with
  | .lt => q
  | .gt => q + 1
  | .eq => q + q % 2

/-- `num / den / 2 ^ e` as a quotient of natural numbers. -/
def scaleDown (num den : Nat) (e : Int) : Nat × Nat :=
  if 0 ≤ e then (num, den * twoTo e.toNat) else (num * twoTo (-e).toNat, den)

/-- The exponent of the grid on which a double next to `num / den` lies: its mantissa has 53 bits, or
fewer on the finest grid. -/
def gridExponent (num den : Nat) : Int :=
  let e := (Nat.log2 num : Int) - Nat.log2 den - 52
  let (n, d) := scaleDown num den e
  max (if n < d * twoTo 52 then e - 1 else e) minExponent

/-- **The stored word of the double nearest to `num / den`**, ties going to the even mantissa; past
the largest finite double it is infinity. -/
def nearestBits (num den : Nat) : Nat :=
  if num = 0 then 0
  else
    let e := gridExponent num den
    let (n, d) := scaleDown num den e
    -- a mantissa that rounds up to the next power of two carries into the exponent by itself
    min ((e - minExponent).toNat * twoTo 52 + divideNearest n d) infinityBits

/-- The double nearest to `num / den`. -/
def nearest (num den : Nat) : Float :=
  Float.ofBits (UInt64.ofNat (nearestBits num den))

end Abacus.Binary64
