import Reckon.Text.Position

/-!
# Positioned characters

A `Glyph` is a character together with the place where it stands. Characters come from single
bytes, so only the first 256 occur, and the character classes below are those of Unicode on that
range.

The NUL character is the mark for the end of the input: it belongs to no class but the control
characters, and no test for a given character accepts it.
-/

namespace Reckon

/-- A character and where it stands. -/
structure Glyph where
  char : Char
  position : Position
  deriving DecidableEq, Inhabited

namespace Glyph

/-- The character that stands for the end of the input. -/
def endMark : Char := '\x00'

/-- The glyph that stands for the end of the input. -/
def ending (p : Position) : Glyph := ⟨endMark, p⟩

/-- Whether this glyph marks the end of the input. -/
def isEnd (g : Glyph) : Bool := g.char == endMark

/-- Whether this is one of the ten ASCII digits. -/
def isDigit (g : Glyph) : Bool := g.char.isDigit

/-- The letters among the first 256 characters. -/
def isLetter (g : Glyph) : Bool :=
  let n := g.char.toNat
  g.char.isAlpha || n == 0xAA || n == 0xB5 || n == 0xBA ||
    (0xC0 ≤ n && n ≤ 0xFF && n != 0xD7 && n != 0xF7)

/-- The whitespace among the first 256 characters. -/
def isWhitespace (g : Glyph) : Bool :=
  let n := g.char.toNat
  (0x09 ≤ n && n ≤ 0x0D) || n == 0x20 || n == 0x85 || n == 0xA0

/-- Whether this is a line feed. -/
def isNewline (g : Glyph) : Bool := g.char == '\n'

/-- The control characters, the end mark among them. -/
def isControl (g : Glyph) : Bool :=
  let n := g.char.toNat
  n < 0x20 || (0x7F ≤ n && n ≤ 0x9F)

/-- Whether this glyph is the character `c`. The end mark is no character. -/
def is (g : Glyph) (c : Char) : Bool := !g.isEnd && g.char == c

/-- Whether this glyph is one of the characters `cs`. -/
def isAny (g : Glyph) (cs : List Char) : Bool := cs.any g.is

/-- A glyph is written as its character; the end mark is spelled out. -/
def text (g : Glyph) : String :=
  if g.isEnd then "<End of Input>" else String.singleton g.char

end Glyph

end Reckon
