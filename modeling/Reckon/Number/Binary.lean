/-!
# Doubles as integers times powers of two

A finite double is `± mantissa · 2 ^ exponent` for integers. `Binary.ofFloat?` reads the two
integers off the bits of a double, and `Binary.toFloat` goes back from any two integers, rounding to
the nearest double and halves to the even one.
-/

namespace Reckon

/-- The number `± mantissa · 2 ^ exponent`. -/
structure Binary where
  negative : Bool
  mantissa : Nat
  exponent : Int
  deriving DecidableEq, Inhabited

namespace Binary

/-- The exponent of the smallest positive double. -/
def minExponent : Int := -1074

/-- The bits of positive infinity. -/
def infinityBits : Nat := 0x7FF0000000000000

/-- The bit that is set in the negative numbers. -/
def signBit : Nat := 0x8000000000000000

/-- The leading place of a mantissa of full length, `2 ^ 52`. It is not among the bits of a double,
where the lowest bit of the exponent has its place. -/
def leadingBit : Nat := 0x10000000000000

/-- The integers behind a double; infinities and NaN have none. -/
def ofFloat? (x : Float) : Option Binary :=
  let bits : Nat := x.toBits.toNat
  let negative := bits >>> 63 == 1
  let biased : Nat := bits >>> 52 % 2048
  let fraction : Nat := bits % leadingBit
  if biased = 2047 then
    none
  else if biased = 0 then
    some ⟨negative, fraction, minExponent⟩
  else
    some ⟨negative, fraction + leadingBit, biased - 1075⟩

/-- `m / 2 ^ k` rounded to the nearest integer, halves to the even one. -/
def shiftRounded (m k : Nat) : Nat :=
  let unit := 1 <<< k
  let quotient := m / unit
  let twice := 2 * (m % unit)
  if twice < unit || (twice = unit && quotient % 2 = 0) then quotient else quotient + 1

/-- The nearest double. The exponent of the result is such that its mantissa has 53 binary places,
or fewer below the smallest normal double. In the bits of a double the mantissa is then added to the
exponent, so that a mantissa that rounding brings to `2 ^ 53` gives the next exponent by itself. -/
def toFloat (b : Binary) : Float :=
  let exponent := max minExponent (b.exponent + b.mantissa.log2 - 52)
  let mantissa :=
    if exponent ≤ b.exponent then
      b.mantissa <<< (b.exponent - exponent).toNat
    else
      shiftRounded b.mantissa (exponent - b.exponent).toNat
  let magnitude :=
    if b.mantissa = 0 then
      0
    else
      min infinityBits ((exponent - minExponent).toNat * leadingBit + mantissa)
  Float.ofBits (UInt64.ofNat (magnitude + if b.negative then signBit else 0))

end Binary

end Reckon
