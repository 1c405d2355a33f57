/-!
# Power — powers of two and of ten

The two bases that numbers are cut up in: digits in tens, words and mantissas in twos.
-/

namespace Abacus

/-- Two to the power `k`. -/
def twoTo (k : Nat) : Nat :=
  Nat.pow 2 k

/-- Ten to the power `k`. -/
def tenTo (k : Nat) : Nat :=
  Nat.pow 10 k

theorem twoTo_succ (k : Nat) : twoTo (k + 1) = 2 * twoTo k :=
  Nat.pow_succ'

theorem twoTo_pos (k : Nat) : 0 < twoTo k :=
  Nat.pow_pos (by decide)

theorem tenTo_pos (k : Nat) : 0 < tenTo k :=
  Nat.pow_pos (by decide)

theorem tenTo_add (j k : Nat) : tenTo (j + k) = tenTo j * tenTo k :=
  Nat.pow_add 10 j k

theorem tenTo_le {j k : Nat} (h : j ≤ k) : tenTo j ≤ tenTo k :=
  Nat.pow_le_pow_right (by decide) h

/-- Every number lies below the power of two that its logarithm names. -/
theorem lt_twoTo_log2 (n : Nat) : n < twoTo (Nat.log2 n + 1) :=
  Nat.lt_log2_self

/-- Three bits hold less than a digit. -/
theorem twoTo_le_tenTo (k : Nat) : twoTo (3 * k) ≤ tenTo k :=
  calc Nat.pow 2 (3 * k) = Nat.pow (Nat.pow 2 3) k := Nat.pow_mul 2 3 k
    _ ≤ Nat.pow 10 k := Nat.pow_le_pow_left (by decide) k

theorem twoTo_le {j k : Nat} (h : j ≤ k) : twoTo j ≤ twoTo k :=
  Nat.pow_le_pow_right (by decide) h

end Abacus
