import Abacus.Decimal.Basic

/-!
# Decimal/Text — how decimals are written and read

`write` keeps the exact pair visible as far as a reader needs it: a number with a point shows all its
digits, trailing zeros included, and only numbers that would need many zeros go to an exponent.
`ofText?` reads a decimal back, and takes a few more forms than `write` produces.
-/

namespace Abacus.Decimal

/-! ## Writing -/

/-- Numbers with more zeros than this in front of the point are written with an exponent. -/
def maxTrailingZeros : Int := 15

/-- Numbers with more zeros than this right after the point are written with an exponent. -/
def maxLeadingZeros : Int := 5

/-- The digits of a number with no digit after the point, followed by its `zeros` zeros. -/
def writeWhole (digits : List Char) (zeros : Int) : List Char :=
  if zeros ≤ maxTrailingZeros then digits ++ List.replicate zeros.toNat '0'
  else digits ++ 'e' :: '+' :: Digits.write zeros.toNat

/-- One digit, a point, the other digits, and the exponent `-places`. -/
def writeScientific (digits : List Char) (places : Nat) : List Char :=
  match digits with
  | [] => []
  | [d] => d :: 'E' :: '-' :: Digits.write places
  | d :: ds => d :: '.' :: ds ++ 'E' :: '-' :: Digits.write places

/-- The digits with a point in front of the last `places` of them. -/
def writePoint (digits : List Char) (places : Nat) : List Char :=
  if digits.length ≤ places then
    '0' :: '.' :: List.replicate (places - digits.length) '0' ++ digits
  else
    digits.take (digits.length - places) ++ '.' :: digits.drop (digits.length - places)

/-- The number of `digits` at the given scale, its sign left out. -/
def writeMagnitude (digits : List Char) (scale : Int) : List Char :=
  if scale ≤ 0 then
    writeWhole digits (-scale)
  else if scale - digits.length > maxLeadingZeros then
    writeScientific digits (scale.toNat + 1 - digits.length)
  else
    writePoint digits scale.toNat

/-- **A decimal as it is shown.** Zero is `0` whatever its scale. -/
def write (d : Decimal) : List Char :=
  if d.coeff = 0 then ['0']
  else
    let body := writeMagnitude (Digits.write d.magnitude) d.scale
    if d.isNegative then '-' :: body else body

/-- The text of a decimal. -/
def text (d : Decimal) : String :=
  String.ofList d.write

/-! ## Reading -/

/-- Whether `c` stands for a digit. -/
def isDigit (c : Char) : Bool :=
  '0' ≤ c && c ≤ '9'

/-- Digits, after the first of which `_` may stand for legibility. -/
def readSpaced? (cs : List Char) : Option Nat :=
  if cs.head?.any isDigit ∧ cs.all (fun c => isDigit c || c == '_') then
    some (Digits.read (cs.filter isDigit))
  else
    none

/-- An integer with an optional sign. -/
def readSigned? (number : List Char → Option Nat) : List Char → Option Int
  | '-' :: cs => (number cs).map fun n => -(n : Int)
  | '+' :: cs => (number cs).map fun n => (n : Int)
  | cs => (number cs).map fun n => (n : Int)

/-- Digits, at least one. -/
def readPlain? (cs : List Char) : Option Nat :=
  if cs ≠ [] ∧ cs.all isDigit then some (Digits.read cs) else none

/-- Splits at the first point: what stands before it and what stands after it. -/
def splitPoint (cs : List Char) : List Char × List Char :=
  (cs.takeWhile (· != '.'), (cs.dropWhile (· != '.')).drop 1)

/-- Reads an optional sign, digits with an optional point, and an optional exponent. The scale must
fit in 64 bits. -/
def read? (cs : List Char) : Option Decimal := do
  let isMark := fun c => c == 'e' || c == 'E'
  let exponent ← match cs.dropWhile (!isMark ·) with
    | [] => some 0
    | _ :: rest => readSigned? readPlain? rest
  let (whole, fraction) := splitPoint (cs.takeWhile (!isMark ·))
  let coeff ← readSigned? readSpaced? (whole ++ fraction)
  let scale := ((fraction.filter (· != '_')).length : Int) - exponent
  if ScaleFits scale then some ⟨coeff, scale⟩ else none

/-- Reads the text of a decimal. -/
def ofText? (s : String) : Option Decimal :=
  read? s.toList

end Abacus.Decimal
