import Reckon.Number.Binary

/-!
# Hypotenuses

The square root of the sum of two squares, rounded once from the exact value.
-/

namespace Reckon

/-- Adds to `root` the powers of two below `2 ^ count`, from the greatest on, as long as the square
of the sum is no more than `n`. -/
def squareRootFrom (n : Nat) : Nat → Nat → Nat
  | 0, root => root
  | count + 1, root =>
    let next := root + 1 <<< count
    squareRootFrom n count (if next * next ≤ n then next else root)

/-- The square root of a natural number, rounded down. -/
def squareRoot (n : Nat) : Nat := squareRootFrom n (n.log2 / 2 + 1) 0

/-- The root of the sum of squares of two numbers, to 64 binary places after those of the smaller
unit and one more that says whether the root came out even. -/
def Binary.hypotenuse (a b : Binary) : Binary :=
  let unit := min a.exponent b.exponent
  let x := a.mantissa <<< ((a.exponent - unit).toNat + 64)
  let y := b.mantissa <<< ((b.exponent - unit).toNat + 64)
  let root := squareRoot (x * x + y * y)
  let inexact := if root * root = x * x + y * y then 0 else 1
  ⟨false, 2 * root + inexact, unit - 65⟩

/-- The square root of the sum of two squares; infinite if either number is. -/
def hypotenuse (x y : Float) : Float :=
  match Binary.ofFloat? x, Binary.ofFloat? y with
  | some a, some b => (a.hypotenuse b).toFloat
  | _, _ => if x.isInf || y.isInf then 1 / 0 else 0 / 0

end Reckon
