/-!
# Integer/Prime — primality by trial division

Two is the only even prime, and an odd number is prime if no odd number from three up to its square
root divides it.
-/

namespace Abacus.Integer

/-- Whether none of `d`, `d + 2`, `d + 4`, … divides `n`, as far as their squares do not exceed `n`. -/
def noDivisorFrom (n d : Nat) : Bool :=
  if d * d ≤ n then
    if n % d = 0 then false else noDivisorFrom n (d + 2)
  else true
termination_by n + 2 - d
decreasing_by
  have : d ≤ d * d := Nat.le_mul_self d
  omega

/-- Whether `n` is a prime number. -/
def isPrime (n : Nat) : Bool :=
  if n < 2 then false
  else if n % 2 = 0 then n == 2
  else noDivisorFrom n 3

end Abacus.Integer
