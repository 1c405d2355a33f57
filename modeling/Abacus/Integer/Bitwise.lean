/-!
# Integer/Bitwise — integers as endless rows of bits

A negative integer has infinitely many leading ones: bit `k` of `-n - 1` is the opposite of bit `k` of
`n`. The operations go through that rule to the bits of natural numbers.
-/

namespace Abacus.Integer

/-- Bit `k` of an integer, leading ones included. -/
def testBit : Int → Nat → Bool
  | .ofNat m, k => m.testBit k
  | .negSucc m, k => !m.testBit k

/-- The bits of `m` that are not bits of `n`. -/
def without (m n : Nat) : Nat :=
  m ^^^ (m &&& n)

/-- Every bit turned over. -/
def complement (a : Int) : Int :=
  -a - 1

/-- The bits that are in both. -/
def and : Int → Int → Int
  | .ofNat m, .ofNat n => .ofNat (m &&& n)
  | .ofNat m, .negSucc n => .ofNat (without m n)
  | .negSucc m, .ofNat n => .ofNat (without n m)
  | .negSucc m, .negSucc n => .negSucc (m ||| n)

/-- The bits that are in one or both. -/
def or : Int → Int → Int
  | .ofNat m, .ofNat n => .ofNat (m ||| n)
  | .ofNat m, .negSucc n => .negSucc (without n m)
  | .negSucc m, .ofNat n => .negSucc (without m n)
  | .negSucc m, .negSucc n => .negSucc (m &&& n)

/-- The bits that are in exactly one. -/
def xor : Int → Int → Int
  | .ofNat m, .ofNat n => .ofNat (m ^^^ n)
  | .ofNat m, .negSucc n => .negSucc (m ^^^ n)
  | .negSucc m, .ofNat n => .negSucc (m ^^^ n)
  | .negSucc m, .negSucc n => .ofNat (m ^^^ n)

/-- The bits moved up by `k` places: the product with `2 ^ k`. -/
def shiftUp : Int → Nat → Int
  | .ofNat m, k => .ofNat (m <<< k)
  | .negSucc m, k => -.ofNat ((m + 1) <<< k)

/-- The bits moved down by `k` places: the quotient by `2 ^ k`, rounded down. -/
def shiftDown : Int → Nat → Int
  | .ofNat m, k => .ofNat (m >>> k)
  | .negSucc m, k => .negSucc (m >>> k)

/-- The bits moved up by `k` places, or down if `k` is negative. -/
def shift (a k : Int) : Int :=
  if k < 0 then shiftDown a k.natAbs else shiftUp a k.natAbs

end Abacus.Integer
