import Reckon.Number.Decimal
import Reckon.Operator

/-!
# Kinds of numbers

What formulas need of the numbers they are about. `Arithmetic` is what evaluation needs, and
`Numeral` is how numbers are written in formulas. Everything but the standard functions is stated
for any kind of numbers, so that one can reason about exact numbers and compute with doubles.

## Main definitions

* `Arithmetic` — the operators, and the tests that functions and conditions make.
* `Quantifier` — the suffixes that scale a number.
* `Numeral` — numbers from decimals, their scaling, their text, and the two that have names.
-/

namespace Reckon

/-- Numbers that formulas can be evaluated in. -/
class Arithmetic (α : Type) where
  zero : α
  /-- The number without its sign. -/
  magnitude : α → α
  /-- The number is not the result of any proper computation. -/
  isNaN : α → Bool
  /-- The number counts as true in a condition. -/
  isTruthy : α → Bool
  /-- Equality of constants in formulas. -/
  equal : α → α → Bool
  /-- The value of an operator. -/
  apply : Operator → α → α → α

/-- The suffixes that scale a number. -/
inductive Quantifier where
  | nano
  | micro
  | milli
  | kilo
  | mega
  | giga
  deriving DecidableEq, Inhabited

/-- The suffix with a given spelling. Thousands have two. -/
def Quantifier.named? : String → Option Quantifier
  | "n" => some nano
  | "u" => some micro
  | "m" => some milli
  | "k" | "K" => some kilo
  | "M" => some mega
  | "G" => some giga
  | _ => none

/-- Numbers that can be read from formulas and written in them. -/
class Numeral (α : Type) where
  /-- The number nearest to a decimal. -/
  ofDecimal : Decimal → α
  /-- The number scaled by a suffix. -/
  scale : Quantifier → α → α
  /-- The written form of a number. -/
  text : α → String
  /-- The number that formulas call `tau`: a full turn. -/
  tau : α
  /-- The number that formulas call `e`: the base of the natural logarithm. -/
  e : α

end Reckon
