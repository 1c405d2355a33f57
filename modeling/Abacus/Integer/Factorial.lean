/-!
# Integer/Factorial — factorials by splitting the product

The product of all steps down from `n` is the product of every second step with the product of the
steps between. Splitting it so keeps the two factors about equally long, which is what makes the
multiplication of large numbers fast.
-/

namespace Abacus.Integer

/-- The product of the positive numbers among `n`, `n - m`, `n - 2 * m`, and so on, for positive `n`
and `m`. -/
def descendingProduct (n m : Nat) : Nat :=
  if 0 < m ∧ m < n then descendingProduct n (2 * m) * descendingProduct (n - m) (2 * m) else n
termination_by n - m

/-- The factorial of `n`. -/
def factorial (n : Nat) : Nat :=
  if n = 0 then 1 else descendingProduct n 1

end Abacus.Integer
