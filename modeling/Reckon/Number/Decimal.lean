import Reckon.Number.Binary

/-!
# Decimal numbers

The number `± mantissa · 10 ^ exponent`, its written forms, and the double nearest to it.

A decimal numeral has an optional sign, digits with at most one point among, before or after them,
and optionally an exponent: a letter `e`, an optional sign and digits.

## Main definitions

* `Decimal.read?` — the number that a numeral names.
* `Decimal.text` — a decimal written out without an exponent.
* `Decimal.toFloat` — the nearest double.
-/

namespace Reckon

/-- The number `± mantissa · 10 ^ exponent`. -/
structure Decimal where
  negative : Bool
  mantissa : Nat
  exponent : Int
  deriving DecidableEq, Inhabited

namespace Decimal

/-- The number that decimal digits name. -/
def ofDigits (cs : List Char) : Nat := cs.foldl (fun n c => 10 * n + (c.toNat - '0'.toNat)) 0

/-- A sign in front of a numeral, and what follows it. -/
def readSign : List Char → Bool × List Char
  | '-' :: cs => (true, cs)
  | '+' :: cs => (false, cs)
  | cs => (false, cs)

/-- The exponent at the end of a numeral; none is zero. -/
def readExponent? : List Char → Option Int
  | [] => some 0
  | c :: cs =>
    let (negative, digits) := readSign cs
    if (c = 'e' || c = 'E') && !digits.isEmpty && digits.all Char.isDigit then
      some (if negative then -ofDigits digits else ofDigits digits)
    else
      none

/-- The places after the point of a numeral, and what follows them. -/
def readFraction : List Char → List Char × List Char
  | '.' :: cs => (cs.takeWhile Char.isDigit, cs.dropWhile Char.isDigit)
  | cs => ([], cs)

/-- The number that a numeral names. -/
def read? (cs : List Char) : Option Decimal :=
  let (negative, cs) := readSign cs
  let whole := cs.takeWhile Char.isDigit
  let (fraction, cs) := readFraction (cs.dropWhile Char.isDigit)
  if whole.isEmpty && fraction.isEmpty then
    none
  else
    (readExponent? cs).map fun exponent =>
      ⟨negative, ofDigits (whole ++ fraction), exponent - fraction.length⟩

/-- The digits of a natural number. -/
def digits (n : Nat) : List Char := Nat.toDigits 10 n

/-- The magnitude of a decimal, written out. -/
def magnitudeText (d : Decimal) : List Char :=
  let ds := digits d.mantissa
  if 0 ≤ d.exponent then
    ds ++ List.replicate d.exponent.toNat '0'
  else
    let places := (-d.exponent).toNat
    if places < ds.length then
      ds.take (ds.length - places) ++ '.' :: ds.drop (ds.length - places)
    else
      '0' :: '.' :: (List.replicate (places - ds.length) '0' ++ ds)

/-- A decimal written out in digits, with a point where it has a fraction. -/
def text (d : Decimal) : String :=
  String.ofList (if d.negative then '-' :: d.magnitudeText else d.magnitudeText)

/-- The nearest double. A quotient is taken to so many binary places that one more, which says
whether the division came out even, decides every rounding. Decimals far outside the range of
doubles are not worked out. -/
def toFloat (d : Decimal) : Float :=
  let size : Int := (digits d.mantissa).length + d.exponent
  if d.mantissa = 0 || size < -400 then
    Binary.toFloat ⟨d.negative, 0, 0⟩
  else if 400 < size then
    Binary.toFloat ⟨d.negative, 1, 1024⟩
  else if 0 ≤ d.exponent then
    Binary.toFloat ⟨d.negative, d.mantissa * Nat.pow 10 d.exponent.toNat, 0⟩
  else
    let divisor : Nat := Nat.pow 10 (-d.exponent).toNat
    let shift : Nat := divisor.log2 + 64
    let dividend : Nat := d.mantissa <<< shift
    let inexact : Nat := if dividend % divisor = 0 then 0 else 1
    Binary.toFloat ⟨d.negative, 2 * (dividend / divisor) + inexact, -(shift + 1 : Int)⟩

end Decimal

end Reckon
