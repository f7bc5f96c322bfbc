/-!
# Settings

The two choices that a host has when it compiles formulas.
-/

namespace Reckon

/-- How formulas are read. -/
structure Settings where
  /-- A single `|` is a bracket, and not the first half of a symbol such as `|=`. -/
  pipeBrackets : Bool := true
  /-- The names `tau` and `e` are bound before a formula is read. -/
  namedConstants : Bool := true
  deriving DecidableEq, Inhabited

end Reckon
