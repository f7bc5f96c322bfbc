import Reckon.Number.Arithmetic
import Mathlib.Algebra.Order.Ring.Unbundled.Rat
import Mathlib.Data.Rat.Lemmas
import Mathlib.Tactic.Ring

/-!
# Exact arithmetic

Doubles round, so that regrouping a sum changes its value by a little. What formulas mean apart from
rounding is said for kinds of numbers in which the laws of arithmetic hold.

## Main definitions

* `ExactArithmetic` — sums and products may be regrouped.
* `SignedArithmetic` — a difference is the sum with the opposite, and a sign may be taken out of a
  product, a quotient or a remainder.
* `SignedNumeral` — a minus sign in front of a numeral names the opposite.

## Main statements

* The rational numbers are exact in all three ways.
-/

namespace Reckon

open Arithmetic Numeral

/-- Sums and products whose operands may be swapped and regrouped. -/
class ExactArithmetic (α : Type) [Arithmetic α] : Prop where
  apply_comm {op : Operator} (hop : op.isCommutative) (x y : α) : apply op x y = apply op y x
  apply_assoc {op : Operator} (hop : op.isCommutative) (x y z : α) :
    apply op (apply op x y) z = apply op x (apply op y z)

/-- The opposite of a number: what a negation in a formula evaluates to. -/
def opposite {α : Type} [Arithmetic α] (x : α) : α := apply .subtract zero x

/-- Signs that may be moved between the operands of a sum and taken out of a product. -/
class SignedArithmetic (α : Type) [Arithmetic α] : Prop extends ExactArithmetic α where
  apply_subtract (x y : α) : apply .subtract x y = apply .add x (opposite y)
  apply_opposite {op : Operator} (hop : op.rank = .product) (x y : α) :
    apply op (opposite x) y = opposite (apply op x y)

/-- Numerals with a minus sign name the opposite of what they name without it. -/
class SignedNumeral (α : Type) [Arithmetic α] [Numeral α] : Prop extends SignedArithmetic α where
  ofDecimal_negative (m : Nat) (e : Int) :
    ofDecimal ⟨true, m, e⟩ = opposite (ofDecimal ⟨false, m, e⟩ : α)
  scale_opposite (q : Quantifier) (x : α) : scale q (opposite x) = opposite (scale q x)

/-! ### Rational numbers -/

namespace Rational

/-- The number for a truth value. -/
def ofProp (p : Prop) [Decidable p] : ℚ := if p then 1 else 0

/-- A quotient without its fraction. -/
def quotient (x y : ℚ) : Int := (x / y).num.tdiv (x / y).den

/-- The value of an operator on rational numbers. A power with a fraction for an exponent is not
rational in general, and zero here. -/
def apply : Operator → ℚ → ℚ → ℚ
  | .add, x, y => x + y
  | .subtract, x, y => x - y
  | .multiply, x, y => x * y
  | .divide, x, y => x / y
  | .modulo, x, y => x - y * quotient x y
  | .power, x, y => if y.den = 1 then x ^ y.num else 0
  | .lessThan, x, y => ofProp (x < y)
  | .lessEqual, x, y => ofProp (x ≤ y)
  | .greaterThan, x, y => ofProp (y < x)
  | .greaterEqual, x, y => ofProp (y ≤ x)
  | .equal, x, y => ofProp (x = y)
  | .notEqual, x, y => ofProp (x ≠ y)
  | .and, x, y => ofProp (x ≠ 0 ∧ y ≠ 0)
  | .or, x, y => ofProp (x ≠ 0 ∨ y ≠ 0)

/-- The power of ten that a suffix stands for. -/
def factor : Quantifier → ℚ
  | .nano => 1 / 1000000000
  | .micro => 1 / 1000000
  | .milli => 1 / 1000
  | .kilo => 1000
  | .mega => 1000000
  | .giga => 1000000000

/-- The number that a decimal is. -/
def ofDecimal (d : Decimal) : ℚ :=
  (if d.negative then -1 else 1) * (d.mantissa * 10 ^ d.exponent)

theorem quotient_neg (x y : ℚ) : quotient (-x) y = -quotient x y := by
  unfold quotient
  rw [neg_div, Rat.num_neg_eq_neg_num, Rat.den_neg_eq_den, Int.neg_tdiv]

end Rational

instance : Arithmetic ℚ where
  zero := 0
  magnitude x := if x < 0 then -x else x
  isNaN _ := false
  isTruthy x := x ≠ 0
  equal x y := x = y
  apply := Rational.apply

instance : Numeral ℚ where
  ofDecimal := Rational.ofDecimal
  scale q x := Rational.factor q * x
  text x := toString x
  tau := 6283185307179586 / 1000000000000000
  e := 2718281828459045 / 1000000000000000

theorem opposite_rat (x : ℚ) : opposite x = -x := zero_sub x

instance : SignedNumeral ℚ where
  apply_comm {op} hop x y := by
    cases op <;> simp [Operator.isCommutative] at hop
    · exact add_comm x y
    · exact mul_comm x y
  apply_assoc {op} hop x y z := by
    cases op <;> simp [Operator.isCommutative] at hop
    · exact add_assoc x y z
    · exact mul_assoc x y z
  apply_subtract x y := by
    rw [opposite_rat]
    exact sub_eq_add_neg x y
  apply_opposite {op} hop x y := by
    rw [opposite_rat, opposite_rat]
    cases op <;> simp [Operator.rank] at hop
    · exact neg_mul x y
    · exact neg_div y x
    · show -x - y * Rational.quotient (-x) y = -(x - y * Rational.quotient x y)
      rw [Rational.quotient_neg]
      push_cast
      ring
  ofDecimal_negative m e := by
    rw [opposite_rat]
    show Rational.ofDecimal ⟨true, m, e⟩ = -Rational.ofDecimal ⟨false, m, e⟩
    simp [Rational.ofDecimal]
  scale_opposite q x := by
    rw [opposite_rat, opposite_rat]
    exact mul_neg (Rational.factor q) x

end Reckon
