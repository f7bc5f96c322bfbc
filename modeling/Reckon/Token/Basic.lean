import Reckon.Text.Case
import Reckon.Text.Glyph

/-!
# Tokens

A `Token` is a classified piece of a formula. It keeps three texts: its `contents`, which is what a
number or a name means; its `trigger`, by which symbols are told apart; and its `source`, which is
how it was written, for messages. A number is written `1_000` and has the contents `1000`; a symbol
has a trigger and, unless it is a bracket, no contents.
-/

namespace Reckon

/-- The classes of tokens. Numbers are told apart by whether they have a point or an exponent. -/
inductive Token.Kind where
  | identifier
  | integer
  | decimal
  | scientific
  | symbol
  | endOfInput
  deriving DecidableEq, Inhabited

/-- The name of a class of tokens. -/
def Token.Kind.name : Token.Kind → String
  | .identifier => "Identifier"
  | .integer => "Integer"
  | .decimal => "Decimal"
  | .scientific => "ScientificDecimal"
  | .symbol => "Symbol"
  | .endOfInput => "EndOfInput"

/-- A piece of a formula, with the position of its first character. -/
structure Token where
  kind : Token.Kind
  contents : String
  trigger : String
  source : String
  position : Position
  deriving DecidableEq, Inhabited

namespace Token

/-- A token without text. -/
def empty (kind : Kind) (p : Position) : Token := ⟨kind, "", "", "", p⟩

/-- The token that stands for the end of the input. -/
def ending (p : Position) : Token := empty .endOfInput p

/-- A token all of whose texts are the one character of `g`; the end mark gives no text. -/
def ofGlyph (kind : Kind) (g : Glyph) : Token :=
  if g.isEnd then
    empty kind g.position
  else
    let s := String.singleton g.char
    ⟨kind, s, s, s, g.position⟩

/-- Adds a character to the contents and the source. -/
def pushContent (t : Token) (c : Char) : Token :=
  { t with contents := t.contents.push c, source := t.source.push c }

/-- Adds a character to the trigger and the source. -/
def pushTrigger (t : Token) (c : Char) : Token :=
  { t with trigger := t.trigger.push c, source := t.source.push c }

/-- Adds a character to the source alone. -/
def pushSource (t : Token) (c : Char) : Token :=
  { t with source := t.source.push c }

/-- Whether this is the end of the input. -/
def isEnd (t : Token) : Bool := t.kind == .endOfInput

/-- Whether this is a name. -/
def isIdentifier (t : Token) : Bool := t.kind == .identifier

/-- Whether this is a number of any of the three classes. -/
def isNumber (t : Token) : Bool :=
  t.kind == .integer || t.kind == .decimal || t.kind == .scientific

/-- Whether this is a symbol, whichever it is. -/
def isAnySymbol (t : Token) : Bool := t.kind == .symbol

/-- Whether the token is of the given class and has the given trigger. -/
def matchesTrigger (t : Token) (kind : Kind) (trigger : String) : Bool :=
  t.kind == kind && t.trigger == trigger

/-- Whether this is the symbol `s`. -/
def isSymbol (t : Token) (s : String) : Bool := t.matchesTrigger .symbol s

/-- Whether the trigger is one of those listed. -/
def wasTriggeredBy (t : Token) (triggers : List String) : Bool := triggers.contains t.trigger

/-- Whether the contents are the given text, upper and lower case aside. -/
def hasContent (t : Token) (s : String) : Bool := Text.lowercase t.contents == Text.lowercase s

/-- How a message names the token. -/
def describe (t : Token) : String :=
  if t.isEnd then "end of input" else "'" ++ t.source ++ "'"

/-- A token is written as its class, its source and its position. -/
def text (t : Token) : String :=
  t.kind.name ++ ":" ++ t.source ++ " (" ++ t.position.text ++ ")"

end Token

end Reckon
