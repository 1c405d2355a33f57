/-!
# Integer/Power — powers of integers
-/

namespace Abacus.Integer

/-- `a` to the power `n`: the power of the magnitude, negative if `a` is and `n` is odd. -/
def pow (a : Int) (n : Nat) : Int :=
  if a < 0 ∧ n % 2 = 1 then -(Nat.pow a.natAbs n : Nat) else (Nat.pow a.natAbs n : Nat)

end Abacus.Integer
