import Reckon.Number.Decimal

/-!
# Shortest decimals

The shortest decimal that reads back as a given double, and of those the nearest to it; of two that
are equally near, the larger.

The reals that read back as `m · 2 ^ q` form an interval around it: it reaches half-way to the next
double on either side, and holds its ends if `m` is even. A decimal grid is the set of multiples of
a power of ten. If a grid has a point in the interval, then one of the two grid points next to the
double lies in it, so it is enough to look at those two, from coarse grids to fine ones.

## Main definitions

* `Shortest.onGrid?` — the point of a grid to be chosen, if one lies in the interval.
* `Shortest.decimal` — the shortest decimal of a positive double.
* `Shortest.text` — a double written out in the digits of its shortest decimal.
-/

namespace Reckon.Shortest

/-- How far the interval reaches below `m · 2 ^ q`, in quarters of `2 ^ q`: below a power of two the
doubles lie twice as dense, except among the smallest. -/
def below (m : Nat) (q : Int) : Nat :=
  if m = Binary.leadingBit && Binary.minExponent < q then 1 else 2

/-- The multiple of `10 ^ e` in the interval around `m · 2 ^ q` that is nearest to it, if there is
one. All numbers are brought to one unit, of which `10 ^ e` has `step`. -/
def onGrid? (m : Nat) (q e : Int) : Option Nat :=
  let step := Nat.pow 10 e.toNat <<< (2 - q).toNat
  let scale := Nat.pow 10 (-e).toNat <<< (q - 2).toNat
  let value := 4 * m * scale
  let low := (4 * m - below m q) * scale
  let high := (4 * m + 2) * scale
  let inside (x : Nat) : Bool :=
    if m % 2 = 0 then low ≤ x && x ≤ high else low < x && x < high
  let n := value / step
  match inside (n * step), inside ((n + 1) * step) with
  | true, true => some (if value - n * step < (n + 1) * step - value then n else n + 1)
  | true, false => some n
  | false, true => some (n + 1)
  | false, false => none

/-- Looks at the grids from `10 ^ e` on down, at no more than `count` of them. -/
def search (m : Nat) (q : Int) : Nat → Int → Nat × Int
  | 0, _ => (m <<< q.toNat, 0)
  | count + 1, e =>
    match onGrid? m q e with
    | some n => (n, e)
    | none => search m q count (e - 1)

/-- A power of ten that is greater than `m · 2 ^ q`. -/
def topExponent (m : Nat) (q : Int) : Int := (m.log2 + 1 + q) * 30103 / 100000 + 1

/-- The shortest decimal that reads back as `m · 2 ^ q`. Seventeen digits are always enough. -/
def decimal (negative : Bool) (m : Nat) (q : Int) : Decimal :=
  let (n, e) := search m q 25 (topExponent m q)
  ⟨negative, n, e⟩

/-- A double written out in the digits of its shortest decimal. -/
def text (x : Float) : String :=
  match Binary.ofFloat? x with
  | some b =>
    if b.mantissa = 0 then
      Decimal.text ⟨b.negative, 0, 0⟩
    else
      (decimal b.negative b.mantissa b.exponent).text
  | none => if x.isNaN then "NaN" else if x < 0 then "-inf" else "inf"

end Reckon.Shortest
