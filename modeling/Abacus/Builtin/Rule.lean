import Abacus.Binary64.CubeRoot
import Abacus.Binary64.Hypotenuse
import Abacus.Context
import Abacus.Integer.Bitwise
import Abacus.Integer.Factorial
import Abacus.Integer.Power
import Abacus.Integer.Prime

/-!
# Builtin/Rule — what operators and functions do with numbers

Most functions take the values of their arguments and answer a number; their `Rule` is a function on
decimals. The others get at more than values: an assignment at the name of its target, a series at the
expression that it repeats, and `random` at the source of random numbers. What those do is said where
expressions are evaluated.

Two products may leave the 64 bits of a scale without a check for it: that of a factor of one, whose
trailing zeros go, and that of a running total. There the program stops (`Decimal.stored`).
-/

namespace Abacus

/-! ## Operators -/

/-- A result, if its scale fits in the 64 bits that hold it; the program stops at any other. -/
def Decimal.stored (d : Decimal) : Except EvalError Decimal :=
  if ScaleFits d.scale then .ok d else .error .stopped

/-- The product, if the scales add up to 64 bits. The check does not foresee that a factor of one takes
the trailing zeros off the other. -/
def Decimal.mulChecked (a b : Decimal) : Except EvalError Decimal :=
  if ScaleFits (a.scale + b.scale) then (a.mul b).stored else .error .exponentOverflow

/-- The remainder, unless the divisor is zero. -/
def Decimal.remChecked (a b : Decimal) : Except EvalError Decimal :=
  if b.isZero then .error .divisionByZero else .ok (a.rem b)

/-- **What an operator does with two numbers.** -/
def Operator.apply (op : Operator) (c : Context) (a b : Decimal) : Except EvalError Decimal :=
  match op with
  | .plus => .ok (a.add b)
  | .minus => .ok (a.sub b)
  | .times => a.mulChecked b
  | .divide => c.divide a b
  | .modulo => a.remChecked b

/-- What an operator does with one number: only signs do anything. -/
def Operator.applySign (op : Operator) (a : Decimal) : Except EvalError Decimal :=
  match op with
  | .plus => .ok a
  | .minus => .ok a.neg
  | op => .error (.unsupportedOperator op)

/-! ## Exact functions -/

namespace Decimal

/-- `a` to the power `n`, if its scale fits in 64 bits. -/
def powChecked (a : Decimal) (n : Nat) : Except EvalError Decimal :=
  if ScaleFits (a.scale * n) then .ok ⟨Integer.pow a.coeff n, a.scale * n⟩ else .error .exponentOverflow

/-- The nearest integer, a half going up. -/
def roundHalf (d : Decimal) : Decimal :=
  (d.addAligned ⟨5, 1⟩).floor

/-- The factorial of a natural number, written in any way. -/
def factorial (d : Decimal) : Except EvalError Decimal :=
  match d.toInt? with
  | none => .error (.factorialNotInteger d)
  | some n =>
    if n < 0 then .error (.factorialNegative d) else .ok (ofInt (Integer.factorial n.natAbs))

/-- Whether the magnitude of `d` is a prime number. Integers of more than 32 bits are refused. -/
def isPrime (d : Decimal) : Except EvalError Bool :=
  if d.isInteger then
    match d.toInt32? with
    | none => .error (.primeTooLarge d)
    | some n => .ok (Integer.isPrime n.natAbs)
  else .ok false

/-- The integer part of `d`, moved by the integer part of `amount`: up, or down if `down` is set; a
negative amount goes the other way. -/
def shift (down : Bool) (d amount : Decimal) : Except EvalError Decimal :=
  let k := amount.truncate
  if k.natAbs < twoTo 32 then .ok (ofInt (Integer.shift d.truncate (if down then -k else k)))
  else .error (.shiftOutOfRange amount)

end Decimal

/-! ## Floating-point functions -/

/-- The double for a decimal. -/
def Decimal.toReal (d : Decimal) : Except EvalError Float :=
  match d.toFloat? with
  | some x => .ok x
  | none => .error (.outOfFloatRange d)

/-- The decimal for a double. -/
def Decimal.ofReal (x : Float) : Except EvalError Decimal :=
  match Decimal.ofFloat? x with
  | .ok d => .ok d
  | .error value => .error (.notRepresentable value)

/-- A function on doubles, as a function on decimals. -/
def Decimal.viaReal (f : Float → Float) (d : Decimal) : Except EvalError Decimal := do
  let x ← d.toReal
  ofReal (f x)

/-- A function on two doubles, as a function on decimals. -/
def Decimal.viaReals (f : Float → Float → Float) (a b : Decimal) : Except EvalError Decimal := do
  let x ← a.toReal
  let y ← b.toReal
  ofReal (f x y)

/-- `a` to the power `b`: exact, or one division, if `b` is an integer of 32 bits; else a
floating-point result. -/
def Decimal.power (c : Context) (a b : Decimal) : Except EvalError Decimal :=
  match b.toInt32? with
  | none => viaReals Float.pow a b
  | some n =>
    if 0 ≤ n then a.powChecked n.natAbs
    else do
      let denominator ← a.powChecked n.natAbs
      c.divide one denominator

/-! ## Rules -/

/-- How the terms of a series are put together. -/
inductive Series where
  | sum
  | product
deriving DecidableEq

/-- What a series starts from. -/
def Series.identity : Series → Decimal
  | .sum => .zero
  | .product => .one

/-- The total with one more term. Nothing checks the scale of a product before it is computed. -/
def Series.combine : Series → Decimal → Decimal → Except EvalError Decimal
  | .sum, total, x => .ok (total.addAligned x)
  | .product, total, x => (total.mulPlain x).stored

/-- How a function is applied. -/
inductive Rule where
  /-- To the value of its one argument. -/
  | unary (apply : Context → Decimal → Except EvalError Decimal)
  /-- To the values of its two arguments. -/
  | binary (apply : Context → Decimal → Decimal → Except EvalError Decimal)
  /-- To a name and the value that it is bound to. -/
  | assignment
  /-- To two bounds and the expression that is repeated between them. -/
  | series (kind : Series)
  /-- To nothing but the source of random numbers. -/
  | random

namespace Rule

/-- A rule that answers whether its arguments compare in a certain way. -/
def comparison (holds : Ordering → Bool) : Rule :=
  .binary fun _ a b => .ok (.ofBool (holds (a.compare b)))

/-- A rule on the integer parts of its arguments. -/
def onIntegers (f : Int → Int → Int) : Rule :=
  .binary fun _ a b => .ok (.ofInt (f a.truncate b.truncate))

/-- A rule on one double. -/
def real (f : Float → Float) : Rule :=
  .unary fun _ d => d.viaReal f

/-- A rule on two doubles. -/
def reals (f : Float → Float → Float) : Rule :=
  .binary fun _ a b => a.viaReals f b

end Rule

/-- **What each function does.** -/
def Builtin.rule : Builtin → Rule
  | .plus => .binary Operator.plus.apply
  | .subtract => .binary Operator.minus.apply
  | .times => .binary Operator.times.apply
  | .divide => .binary Operator.divide.apply
  | .modulo => .binary Operator.modulo.apply
  | .abs => .unary fun c d => .ok (c.round d.abs)
  | .power => .binary Decimal.power
  | .floor => .unary fun _ d => .ok d.floor
  | .ceiling => .unary fun _ d => .ok d.ceiling
  | .round => .unary fun _ d => .ok d.roundHalf
  | .equal => .comparison (· == .eq)
  | .unequal => .comparison (· != .eq)
  | .less => .comparison (· == .lt)
  | .lessEqual => .comparison (· != .gt)
  | .greater => .comparison (· == .gt)
  | .greaterEqual => .comparison (· != .lt)
  | .not => .unary fun _ d => .ok (.ofBool (d.truncate == 0))
  | .bitAnd => .onIntegers Integer.and
  | .bitOr => .onIntegers Integer.or
  | .bitXor => .onIntegers Integer.xor
  | .bitNot => .unary fun _ d => .ok (.ofInt (Integer.complement d.truncate))
  | .bitShiftLeft => .binary fun _ a b => a.shift false b
  | .bitShiftRight => .binary fun _ a b => a.shift true b
  | .factorial => .unary fun _ d => d.factorial
  | .isPrime => .unary fun _ d => d.isPrime.map .ofBool
  | .define => .assignment
  | .sum => .series .sum
  | .product => .series .product
  | .random => .random
  | .sin => .real Float.sin
  | .cos => .real Float.cos
  | .tan => .real Float.tan
  | .asin => .real Float.asin
  | .acos => .real Float.acos
  | .atan => .real Float.atan
  | .atan2 => .reals Float.atan2
  | .sinh => .real Float.sinh
  | .cosh => .real Float.cosh
  | .tanh => .real Float.tanh
  | .exp => .real Float.exp
  | .logE => .real Float.log
  | .log2 => .real Float.log2
  | .log10 => .real Float.log10
  -- the base comes first
  | .log => .reals fun base x => x.log / base.log
  | .sqrt => .real Float.sqrt
  | .cbrt => .real Binary64.cubeRoot
  | .hypot => .reals Binary64.hypotenuse

/-- What a function makes of a list of values, if it needs no more than values and takes that many. -/
def Builtin.applyTo? (f : Builtin) (c : Context) (values : List Decimal) :
    Option (Except EvalError Decimal) :=
  match f.rule, values with
  | .unary apply, [a] => some (apply c a)
  | .binary apply, [a, b] => some (apply c a b)
  | _, _ => none

end Abacus
