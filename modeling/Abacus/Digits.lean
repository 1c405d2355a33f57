import Abacus.Power

/-!
# Digits — the decimal digits of a natural number

How many digits a number has, how it is written, how a written number is read, and how many zeros
it ends in. Every function here halves the number of digits at each step instead of peeling one
digit at a time, so that numbers of a million digits stay cheap.

The two facts the rest of the library uses are `lt_tenTo_count` and `tenTo_count_le`: between them
they say that `count n` is the number of digits of `n`.
-/

namespace Abacus.Digits

/-- A level high enough for `n`: a number of `twoTo (level n)` digits has room for it. -/
def level (n : Nat) : Nat :=
  Nat.log2 (Nat.log2 n / 3 + 1) + 1

/-- **The level is high enough.** -/
theorem lt_tenTo_level (n : Nat) : n < tenTo (twoTo (level n)) := by
  have hlevel : Nat.log2 n / 3 + 1 < twoTo (level n) := lt_twoTo_log2 _
  calc n < twoTo (Nat.log2 n + 1) := lt_twoTo_log2 n
    _ ≤ twoTo (3 * twoTo (level n)) := twoTo_le (by omega)
    _ ≤ tenTo (twoTo (level n)) := twoTo_le_tenTo _

/-! ## Counting -/

/-- The number of digits of `n`, for `n` of at most `twoTo k` digits. -/
def countBelow : Nat → Nat → Nat
  | 0, _ => 1
  | k + 1, n =>
    if n < tenTo (twoTo k) then countBelow k n
    else twoTo k + countBelow k (n / tenTo (twoTo k))

/-- The number of decimal digits of `n`; zero has one. -/
def count (n : Nat) : Nat :=
  countBelow (level n) n

theorem countBelow_pos : ∀ k n : Nat, 0 < countBelow k n
  | 0, _ => Nat.one_pos
  | k + 1, n => by
      rw [countBelow]
      split
      · exact countBelow_pos k n
      · exact Nat.add_pos_right _ (countBelow_pos k _)

theorem count_pos (n : Nat) : 0 < count n :=
  countBelow_pos _ _

theorem lt_tenTo_countBelow : ∀ k n : Nat, n < tenTo (twoTo k) → n < tenTo (countBelow k n)
  | 0, _, h => h
  | k + 1, n, h => by
      rw [countBelow]
      split
      · next hn => exact lt_tenTo_countBelow k n hn
      · have hsplit : n < tenTo (twoTo k) * tenTo (twoTo k) := by
          rwa [← tenTo_add, ← Nat.two_mul, ← twoTo_succ]
        have hq := lt_tenTo_countBelow k _ (Nat.div_lt_of_lt_mul hsplit)
        rw [tenTo_add, Nat.mul_comm]
        exact (Nat.div_lt_iff_lt_mul (tenTo_pos _)).mp hq

/-- **A number lies below the power of ten that its digit count names.** -/
theorem lt_tenTo_count (n : Nat) : n < tenTo (count n) :=
  lt_tenTo_countBelow _ _ (lt_tenTo_level n)

theorem tenTo_countBelow_le : ∀ k n : Nat, n ≠ 0 → tenTo (countBelow k n - 1) ≤ n
  | 0, _, h => Nat.pos_of_ne_zero h
  | k + 1, n, h => by
      rw [countBelow]
      split
      · exact tenTo_countBelow_le k n h
      · next hn =>
          have hq : n / tenTo (twoTo k) ≠ 0 :=
            Nat.ne_of_gt (Nat.div_pos (Nat.le_of_not_lt hn) (tenTo_pos _))
          have ih := tenTo_countBelow_le k _ hq
          rw [Nat.add_sub_assoc (countBelow_pos k _), tenTo_add, Nat.mul_comm]
          exact (Nat.le_div_iff_mul_le (tenTo_pos _)).mp ih

/-- **A positive number reaches the power of ten below its digit count.** -/
theorem tenTo_count_le {n : Nat} (h : n ≠ 0) : tenTo (count n - 1) ≤ n :=
  tenTo_countBelow_le _ _ h

/-! ## Cutting -/

/-- `n` without its last `k` digits. -/
def dropLast (n k : Nat) : Nat :=
  -- a cut past the first digit leaves nothing, and its power of ten need not be built
  if count n ≤ k then 0 else n / tenTo k

/-- The last `k` digits of `n`. -/
def takeLast (n k : Nat) : Nat :=
  if count n ≤ k then n else n % tenTo k

theorem lt_tenTo_of_count_le {n k : Nat} (h : count n ≤ k) : n < tenTo k :=
  Nat.lt_of_lt_of_le (lt_tenTo_count n) (tenTo_le h)

theorem dropLast_eq (n k : Nat) : dropLast n k = n / tenTo k := by
  rw [dropLast]
  split
  · next h => exact (Nat.div_eq_of_lt (lt_tenTo_of_count_le h)).symm
  · rfl

theorem takeLast_eq (n k : Nat) : takeLast n k = n % tenTo k := by
  rw [takeLast]
  split
  · next h => exact (Nat.mod_eq_of_lt (lt_tenTo_of_count_le h)).symm
  · rfl

/-! ## Trailing zeros -/

/-- `n` without its trailing zeros, and how many there were, for a positive `n` that ends in fewer
than `twoTo (k + 1)` of them. -/
def stripBelow : Nat → Nat → Nat × Nat
  | 0, n => if n % 10 = 0 then (n / 10, 1) else (n, 0)
  | k + 1, n =>
    if n % tenTo (twoTo (k + 1)) = 0 then
      let rest := stripBelow k (n / tenTo (twoTo (k + 1)))
      (rest.1, rest.2 + twoTo (k + 1))
    else
      stripBelow k n

/-- `n` without its trailing zeros, and how many there were; zero is left alone. -/
def stripZeros (n : Nat) : Nat × Nat :=
  if n % 10 = 0 ∧ n ≠ 0 then stripBelow (level n) n else (n, 0)

/-! ## Writing and reading -/

/-- The character of a digit below ten. -/
def char (d : Nat) : Char :=
  Char.ofNat ('0'.toNat + d)

/-- The last `twoTo k` digits of `n`, leading zeros included, in front of `rest`. -/
def writePadded : Nat → Nat → List Char → List Char
  | 0, n, rest => char (n % 10) :: rest
  | k + 1, n, rest =>
    writePadded k (n / tenTo (twoTo k)) (writePadded k (n % tenTo (twoTo k)) rest)

/-- The digits of `n`, most significant first, with no leading zero; zero is written `0`. -/
def write (n : Nat) : List Char :=
  if n = 0 then ['0'] else (writePadded (level n) n []).dropWhile (· == '0')

/-- The number that a list of digits writes. -/
def read (cs : List Char) : Nat :=
  cs.foldl (fun n c => 10 * n + (c.toNat - '0'.toNat)) 0

/-- The text of `n`. -/
def text (n : Nat) : String :=
  String.ofList (write n)

/-- The text of an integer, with `-` in front of a negative one. -/
def intText (n : Int) : String :=
  if n < 0 then "-" ++ text n.natAbs else text n.natAbs

end Abacus.Digits
