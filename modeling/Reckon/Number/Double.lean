import Reckon.Number.Arithmetic
import Reckon.Number.Remainder
import Reckon.Number.Shortest

/-!
# Doubles as numbers of formulas

Two doubles are equal in a formula if they differ by less than the smallest positive double, and
different if they differ by more; a number is true if its magnitude is greater than that. An
infinity is therefore not equal to itself, and the smallest double is not true.
-/

namespace Reckon

namespace Double

/-- The smallest positive double. -/
def least : Float := Float.ofBits 1

/-- Whether a number counts as true. -/
def isTruthy (x : Float) : Bool := x.abs > least

/-- Whether two numbers differ by less than the smallest positive double. -/
def nearlyEqual (x y : Float) : Bool := (x - y).abs < least

/-- The number for a truth value. -/
def ofBool (b : Bool) : Float := if b then 1 else 0

/-- The value of an operator on doubles. -/
def apply : Operator → Float → Float → Float
  | .add, x, y => x + y
  | .subtract, x, y => x - y
  | .multiply, x, y => x * y
  | .divide, x, y => x / y
  | .modulo, x, y => remainder x y
  | .power, x, y => Float.pow x y
  | .lessThan, x, y => ofBool (x < y)
  | .lessEqual, x, y => ofBool (x < y || nearlyEqual x y)
  | .greaterThan, x, y => ofBool (x > y)
  | .greaterEqual, x, y => ofBool (x > y || nearlyEqual x y)
  | .equal, x, y => ofBool (nearlyEqual x y)
  | .notEqual, x, y => ofBool ((x - y).abs > least)
  | .and, x, y => ofBool (isTruthy x && isTruthy y)
  | .or, x, y => ofBool (isTruthy x || isTruthy y)

/-- A double scaled by a suffix. Small suffixes divide, so that no power of ten is rounded. -/
def scale : Quantifier → Float → Float
  | .nano, x => x / 1000000000
  | .micro, x => x / 1000000
  | .milli, x => x / 1000
  | .kilo, x => x * 1000
  | .mega, x => x * 1000000
  | .giga, x => x * 1000000000

end Double

instance : Arithmetic Float where
  zero := 0
  magnitude := Float.abs
  isNaN := Float.isNaN
  isTruthy := Double.isTruthy
  equal x y := x == y
  apply := Double.apply

instance : Numeral Float where
  ofDecimal := Decimal.toFloat
  scale := Double.scale
  text := Shortest.text
  tau := 6.283185307179586
  e := 2.718281828459045

end Reckon
