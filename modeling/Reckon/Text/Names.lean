/-!
# Sets of names

Names are listed in the order of their characters' code points, each once.
-/

namespace Reckon

/-- The names of a list in order, each once. -/
def sortedNames (names : List String) : List String :=
  (names.mergeSort fun a b => decide (a ≤ b)).eraseReps

end Reckon
