/-!
# Ranges of characters

Classes of characters are given by the ranges of numbers that they consist of.
-/

namespace Reckon.Text

/-- The characters with numbers from `first` to `last`. -/
structure CharRange where
  first : Nat
  last : Nat

/-- Whether a character is in the range. -/
def CharRange.holds (r : CharRange) (c : Char) : Bool := r.first ≤ c.toNat && c.toNat ≤ r.last

/-- Whether a character is in one of some ranges. -/
def inRanges (rs : List CharRange) (c : Char) : Bool := rs.any (·.holds c)

theorem CharRange.holds_iff {r : CharRange} {c : Char} :
    r.holds c = true ↔ r.first ≤ c.toNat ∧ c.toNat ≤ r.last := by
  simp [holds]

end Reckon.Text
