import Reckon.Arity
import Reckon.Token.Basic

/-!
# Errors

Everything that can keep a formula from being read or evaluated, as a cause. `Error.kind` sorts the
causes into four kinds, `Error.position` is the place in the formula that is at fault, where there
is one, and `Error.message` and `Error.text` are the wording.
-/

namespace Reckon

/-- What the grammar asks for where it meets another token. -/
inductive Expectation where
  | endOfInput
  | symbol (s : String)
  | expression
  | quantifier
  deriving DecidableEq, Inhabited

/-- The wording of what was expected. -/
def Expectation.text : Expectation → String
  | endOfInput => "Expected end of input."
  | symbol s => "Expected: '" ++ s ++ "'."
  | expression => "Expected an expression."
  | quantifier => "Expected a valid quantifier."

/-- The causes of failure. -/
inductive Error where
  /-- The input ends inside a block comment. -/
  | unclosedComment (position : Position)
  /-- A character that begins no token. -/
  | invalidCharacter (c : Char) (position : Position)
  /-- A point in a number that has a point or an exponent already; `source` is the number so far. -/
  | repeatedPoint (source : String) (position : Position)
  /-- An exponent in a number that has one already. -/
  | repeatedExponent (source : String) (position : Position)
  /-- A number token that names no number, because its exponent has no digits. -/
  | malformedNumber (source : String) (position : Position)
  /-- A token that the grammar does not allow where it stands. -/
  | unexpectedToken (found : Token) (expected : Expectation)
  | unknownVariable (name : String) (position : Position)
  | unknownFunction (name : String) (position : Position)
  /-- A call with a number of arguments that the function does not take. -/
  | argumentCount (function : String) (arity : Arity) (received : Nat)
  /-- A call without arguments of a function that takes any number but none. -/
  | noArguments (function : String)
  /-- An attempt to give a constant a new value. -/
  | constantAssigned (name : String)
  /-- A failure that the body of a function reports. -/
  | reported (message : String)
  /-- The source of the formula cannot be read. -/
  | unreadable (reason : String)
  deriving DecidableEq, Inhabited

namespace Error

/-- The kinds of errors: of characters, of grammar, of meaning, and of the source itself. -/
inductive Kind where
  | lexical
  | syntactic
  | semantic
  | input
  deriving DecidableEq, Inhabited

/-- The kind of an error. -/
def kind : Error → Kind
  | unclosedComment .. | invalidCharacter .. | repeatedPoint .. | repeatedExponent ..
  | malformedNumber .. => .lexical
  | unexpectedToken .. => .syntactic
  | unknownVariable .. | unknownFunction .. | argumentCount .. | noArguments ..
  | constantAssigned .. | reported .. => .semantic
  | unreadable .. => .input

/-- The place in the formula that is at fault. -/
def position : Error → Option Position
  | unclosedComment p | invalidCharacter _ p | repeatedPoint _ p | repeatedExponent _ p
  | malformedNumber _ p | unknownVariable _ p | unknownFunction _ p => some p
  | unexpectedToken found _ => some found.position
  | argumentCount .. | noArguments .. | constantAssigned .. | reported .. | unreadable .. => none

/-- A character in a message: printable ASCII is shown, quotes and backslashes behind a backslash,
and any other character by its number in hexadecimal digits. -/
def escape (c : Char) : String :=
  let n := c.toNat
  if n = 0x09 then
    "\\t"
  else if n = 0x0A then
    "\\n"
  else if n = 0x0D then
    "\\r"
  else if n = 0x22 || n = 0x27 || n = 0x5C then
    "\\" ++ String.singleton c
  else if 0x20 ≤ n && n ≤ 0x7E then
    String.singleton c
  else
    "\\u\x7b" ++ String.ofList (Nat.toDigits 16 n) ++ "\x7d"

/-- What went wrong, without the kind and the place. -/
def message : Error → String
  | unclosedComment _ => "Premature end of block comment."
  | invalidCharacter c _ => "Invalid character in input: '" ++ escape c ++ "'"
  | repeatedPoint source _ => "Unexpected decimal separator in '" ++ source ++ "'"
  | repeatedExponent source _ => "Unexpected scientific notation separator in '" ++ source ++ "'"
  | malformedNumber source _ => "Malformed number: '" ++ source ++ "'"
  | unexpectedToken found expected =>
    "Unexpected token: " ++ found.describe ++ ". " ++ expected.text
  | unknownVariable name _ => "Unknown variable: '" ++ name ++ "'"
  | unknownFunction name _ => "Unknown function: '" ++ name ++ "'"
  | argumentCount function arity received =>
    function ++ ": Expected " ++ arity.text ++ " arguments, but received " ++ toString received
  | noArguments function => function ++ ": Expected at least 1 argument, but received 0"
  | constantAssigned name => "Cannot assign to constant: '" ++ name ++ "'"
  | reported message => message
  | unreadable reason => reason

/-- The place of an error between two texts, or nothing if it has none. -/
def place (e : Error) (opening closing : String) : String :=
  match e.position with
  | some p => opening ++ p.text ++ closing
  | none => ""

/-- An error is written as its kind, its message and its place: the place stands before the message
if every error of the kind has one, and after it in brackets if only some have. -/
def text (e : Error) : String :=
  match e.kind with
  | .lexical => "lexical error" ++ e.place " at " "" ++ ": " ++ e.message
  | .syntactic => "syntax error" ++ e.place " at " "" ++ ": " ++ e.message
  | .semantic => "semantic error: " ++ e.message ++ e.place " (at " ")"
  | .input => "IO error: " ++ e.message

end Error

end Reckon
