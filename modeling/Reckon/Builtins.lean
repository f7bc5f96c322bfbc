import Reckon.Number.Double
import Reckon.Number.Hypotenuse
import Reckon.Workspace

/-!
# Standard functions

The functions and the constant `pi` that every calculator has. All functions but `now` are
deterministic, so that calls of them with constant arguments are worked out when a formula is
compiled.

* Trigonometric: `sin`, `cos`, `tan`, `asin`, `acos`, `atan`, `atan2`
* Hyperbolic: `sinh`, `cosh`, `tanh`, `coth`
* Powers and logarithms: `sqrt`, `exp`, `ln`, `log10`, `log2`, `pow`, `hypot`
* Rounding and sign: `abs`, `floor`, `ceil`, `round`, `sign`
* Of any number of arguments: `min`, `max`, `sum`, `avg`
* The time of day: `now`
-/

namespace Reckon.Builtins

/-- The sign of a number, as a number; zero has none. -/
def sign (x : Float) : Float := if x == 0 then 0 else if x < 0 then -1 else 1

/-- The smaller of two numbers; one that is NaN does not count. -/
def smaller (x y : Float) : Float :=
  if x.isNaN then y else if y.isNaN then x else if y < x then y else x

/-- The larger of two numbers; one that is NaN does not count. -/
def larger (x y : Float) : Float :=
  if x.isNaN then y else if y.isNaN then x else if x < y then y else x

/-- The smallest of some numbers, and zero of none. -/
def minimum (xs : List Float) : Float :=
  if xs.isEmpty then 0 else xs.foldl smaller (1 / 0)

/-- The largest of some numbers, and zero of none. -/
def maximum (xs : List Float) : Float :=
  if xs.isEmpty then 0 else xs.foldl larger (-1 / 0)

/-- The sum of some numbers, from left to right. The sum of none is the zero that leaves every other
number as it is, the negative one. -/
def sum (xs : List Float) : Float := xs.foldl (· + ·) (-0.0)

/-- The mean of some numbers. There is none of none. -/
def average (name : String) (xs : List Float) : Except Error Float :=
  if xs.isEmpty then .error (.noArguments name) else .ok (sum xs / Float.ofNat xs.length)

/-- A function of one number. -/
def unary (name : String) (f : Float → Float) : Function Float := { name, body := .unary f }

/-- A function of two numbers. -/
def binary (name : String) (f : Float → Float → Float) : Function Float :=
  { name, body := .binary f }

/-- A function of any number of numbers, all of which are evaluated. -/
def variadic (name : String) (f : List Float → Except Error Float) : Function Float :=
  { name, body := .variadic fun _ => .allValues fun xs => .result (f xs) }

/-- The standard functions. -/
def functions : List (Function Float) := [
  unary "sin" Float.sin,
  unary "cos" Float.cos,
  unary "tan" Float.tan,
  unary "asin" Float.asin,
  unary "acos" Float.acos,
  unary "atan" Float.atan,
  binary "atan2" Float.atan2,
  unary "sinh" Float.sinh,
  unary "cosh" Float.cosh,
  unary "tanh" Float.tanh,
  unary "coth" fun x => 1 / Float.tanh x,
  unary "sqrt" Float.sqrt,
  unary "exp" Float.exp,
  unary "ln" Float.log,
  unary "log10" Float.log10,
  unary "log2" Float.log2,
  binary "pow" Float.pow,
  binary "hypot" hypotenuse,
  unary "abs" Float.abs,
  unary "floor" Float.floor,
  unary "ceil" Float.ceil,
  unary "round" Float.round,
  unary "sign" sign,
  variadic "min" fun xs => .ok (minimum xs),
  variadic "max" fun xs => .ok (maximum xs),
  variadic "sum" fun xs => .ok (sum xs),
  variadic "avg" (average "avg"),
  { name := "now"
    body := .fixed 0 (.clock fun time => .result (.ok time))
    deterministic := false }]

/-- The names of the standard functions. -/
def names : List String := functions.map (·.name)

/-- The number that formulas call `pi`: half a turn. -/
def pi : Float := 3.141592653589793

/-- Binds the standard functions and `pi`. -/
def bind (w : Workspace Float) : Workspace Float :=
  functions.foldl (fun w f => (w.createFunction f.name f).2) (w.createConstant "pi" pi).2

end Reckon.Builtins
