import Reckon.Number.Binary

/-!
# Remainders of doubles

The remainder of a division that is rounded toward zero. It has the sign of the dividend, is smaller
than the divisor, and is always a double, so that nothing is rounded.
-/

namespace Reckon

/-- The remainder of two numbers by magnitude, with the sign of the first, worked out in the smaller
of their units. -/
def Binary.remainder (a b : Binary) : Binary :=
  let unit := min a.exponent b.exponent
  let dividend := a.mantissa <<< (a.exponent - unit).toNat
  let divisor := b.mantissa <<< (b.exponent - unit).toNat
  ⟨a.negative, dividend % divisor, unit⟩

/-- The remainder of a division that is rounded toward zero. There is none by zero or of an
infinity; an infinite divisor leaves the dividend. -/
def remainder (x y : Float) : Float :=
  match Binary.ofFloat? x, Binary.ofFloat? y with
  | some a, some b => if b.mantissa = 0 then 0 / 0 else (a.remainder b).toFloat
  | some _, none => if y.isNaN then y else x
  | none, _ => 0 / 0

end Reckon
