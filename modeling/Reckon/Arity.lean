/-!
# Numbers of arguments

How many arguments a function takes.
-/

namespace Reckon

/-- A fixed number of arguments, or any. -/
inductive Arity where
  | fixed (count : Nat)
  | variadic
  deriving DecidableEq, Inhabited

namespace Arity

/-- Whether a call with `count` arguments is possible. -/
def accepts : Arity → Nat → Bool
  | fixed expected, count => expected == count
  | variadic, _ => true

/-- How messages name the number of arguments. -/
def text : Arity → String
  | fixed count => toString count
  | variadic => "any number of"

end Arity

end Reckon
