import Abacus.Decimal.Basic

/-!
# Decimal/Rounding — dropping digits under a rounding mode

Rounding works on the magnitude: the digits that go are compared with half a unit of the last digit
that stays, and the mode, which is told the sign, decides whether that digit goes up by one.
-/

namespace Abacus

/-- Where a number goes that lies strictly between two neighbours. -/
inductive RoundingMode where
  /-- Away from zero. -/
  | up
  /-- Towards zero. -/
  | down
  /-- To the greater neighbour. -/
  | ceiling
  /-- To the lesser neighbour. -/
  | floor
  /-- To the nearer neighbour, a half away from zero. -/
  | halfUp
  /-- To the nearer neighbour, a half towards zero. -/
  | halfDown
  /-- To the nearer neighbour, a half to the one whose last digit is even. -/
  | halfEven
deriving DecidableEq

/-- What dropped digits amount to, measured in units of the last digit kept. -/
inductive Discard where
  /-- Nothing: only zeros were dropped. -/
  | nothing
  | belowHalf
  | half
  | aboveHalf
deriving DecidableEq

/-- What the last `k` digits of `n` amount to when they are dropped. -/
def Discard.ofLast (n k : Nat) : Discard :=
  if n = 0 then .nothing
  -- fewer digits than were dropped: not even a tenth, and no power of ten to build
  else if Digits.count n < k then .belowHalf
  else
    let dropped := n % tenTo k
    if dropped = 0 then .nothing
    else
      match compare (2 * dropped) (tenTo k) with
      | .lt => .belowHalf
      | .eq => .half
      | .gt => .aboveHalf

/-- **Whether the magnitude goes up by one**, given the sign, the magnitude that is kept and what was
dropped from it. -/
def RoundingMode.increments (mode : RoundingMode) (negative : Bool) (kept : Nat) :
    Discard → Bool
  | .nothing => false
  | discard =>
    match mode with
    | .up => true
    | .down => false
    | .ceiling => !negative
    | .floor => negative
    | .halfUp => discard != .belowHalf
    | .halfDown => discard == .aboveHalf
    | .halfEven => discard == .aboveHalf || (discard == .half && kept % 2 == 1)

namespace Decimal

/-- `d` rounded to `s` digits after the point; zeros are added if it has fewer. -/
def roundToScale (d : Decimal) (s : Int) (mode : RoundingMode) : Decimal :=
  if d.scale ≤ s then
    d.withScale s
  else
    let cut := (d.scale - s).toNat
    let kept := Digits.dropLast d.magnitude cut
    let away := mode.increments d.isNegative kept (Discard.ofLast d.magnitude cut)
    ⟨d.coeff.sign * ((if away then kept + 1 else kept : Nat) : Int), s⟩

/-- `d` rounded to `p` digits, counted from its leading one. A carry out of the leading digit leaves
one digit more. -/
def roundToDigits (d : Decimal) (p : Nat) (mode : RoundingMode) : Decimal :=
  d.roundToScale (d.scale + p - d.digitCount) mode

/-- The greatest integer at most `d`. -/
def floor (d : Decimal) : Decimal :=
  d.roundToScale 0 .floor

/-- The least integer at least `d`. -/
def ceiling (d : Decimal) : Decimal :=
  d.roundToScale 0 .ceiling

end Decimal

end Abacus
