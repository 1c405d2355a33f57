import Abacus.Digits
import Abacus.Binary64.Basic

/-!
# Binary64/Shortest — the fewest decimal digits that read back

A double stands for every real that rounds to it. Among the decimals in that interval `shortest`
takes one with the fewest digits: it walks from coarse powers of ten to fine ones and stops at the
first grid that has a point in the interval. On that grid only the two neighbours of the double need
to be tried; the nearer one wins, and the upper one if they are equally near.
-/

namespace Abacus.Binary64

/-- Compares `c * 10 ^ p` with `b * 2 ^ e`, exactly. -/
def compareGrid (c : Nat) (p : Int) (b : Nat) (e : Int) : Ordering :=
  compare (c * tenTo p.toNat * twoTo (-e).toNat) (b * twoTo e.toNat * tenTo (-p).toNat)

/-- Whether `c * 10 ^ p` reads back as the double `m * 2 ^ q`: it lies between the midpoints to the
double's neighbours, which themselves read back if the mantissa is even. -/
def readsBack (m : Nat) (q : Int) (c : Nat) (p : Int) : Bool :=
  -- right above a power of two the lower neighbour is half as far away
  let below := if m = twoTo 52 ∧ minExponent < q then 4 * m - 1 else 4 * m - 2
  let lower := compareGrid c p below (q - 2)
  let upper := compareGrid c p (4 * m + 2) (q - 2)
  let even := m % 2 == 0
  (lower == .gt || (even && lower == .eq)) && (upper == .lt || (even && upper == .eq))

/-- The greatest `c` with `c * 10 ^ p` at most `m * 2 ^ q`. -/
def gridBelow (m : Nat) (q : Int) (p : Int) : Nat :=
  m * twoTo q.toNat * tenTo (-p).toNat / (tenTo p.toNat * twoTo (-q).toNat)

/-- The point of the grid `10 ^ p` that stands for `m * 2 ^ q`, if the grid has one. -/
def onGrid? (m : Nat) (q : Int) (p : Int) : Option Nat :=
  let c := gridBelow m q p
  match readsBack m q c p, readsBack m q (c + 1) p with
  | false, false => none
  | true, false => some c
  | false, true => some (c + 1)
  | true, true =>
    -- the midpoint of the two, in units of `10 ^ p / 2`
    if compareGrid (2 * c + 1) p (2 * m) q == .gt then some c else some (c + 1)

/-- Tries the grid `10 ^ p` and up to `n` finer ones. -/
def shortestFrom (m : Nat) (q : Int) : Nat → Int → Nat × Int
  | 0, p => (gridBelow m q p, p)
  | n + 1, p =>
    match onGrid? m q p with
    | some c => (c, p)
    | none => shortestFrom m q n (p - 1)

/-- **The decimal `c * 10 ^ p` of fewest digits that reads back as `m * 2 ^ q`**, for a positive
mantissa. -/
def shortest (m : Nat) (q : Int) : Nat × Int :=
  -- 30103 / 100000 is just above the logarithm of two, so the first grid is too coarse
  let coarse := (q + Nat.log2 m + 1) * 30103 / 100000 + 1
  shortestFrom m q 22 coarse

/-- A digit, a point and the other digits, if any, and the power of ten of the first digit. -/
def scientificText (negative : Bool) (c : Nat) (p : Int) : String :=
  let sign := if negative then "-" else ""
  match Digits.write c with
  | [] => sign
  | [d] => sign ++ String.ofList [d] ++ "e" ++ Digits.intText p
  | d :: ds =>
    sign ++ String.ofList (d :: '.' :: ds) ++ "e" ++ Digits.intText (p + ds.length)

/-- The shortest text of a double, in scientific notation. -/
def text (x : Float) : String :=
  match decode x.toBits with
  | .notANumber => "NaN"
  | .infinite negative => if negative then "-inf" else "inf"
  | .finite negative m q =>
    if m = 0 then scientificText negative 0 0
    else
      let (c, p) := shortest m q
      scientificText negative c p

end Abacus.Binary64
