/-!
# Positions in a text

A `Position` names a character by its line and column, both counted from one. The same type also
says how far a text has been read: the position of the last character read, which is column zero
when nothing of the line has been read yet.

## Main definitions

* `Position.start` — before the first character.
* `Position.next` — the position that the next character gets.
* `Position.after` — how far a text is read once that character has been read.
-/

namespace Reckon

/-- A line and a column, both counted from one. -/
structure Position where
  line : Nat
  column : Nat
  deriving DecidableEq, Inhabited

namespace Position

/-- How far a text is read before its first character. -/
def start : Position := ⟨1, 0⟩

/-- The position of the character that follows. -/
def next (p : Position) : Position := ⟨p.line, p.column + 1⟩

/-- How far the text is read once `c` has been read too: a line feed opens a new line, of which
nothing has been read. -/
def after (p : Position) (c : Char) : Position :=
  if c = '\n' then ⟨p.line + 1, 0⟩ else p.next

/-- How far a text was read just before the character at `p`. -/
def before (p : Position) : Position := ⟨p.line, p.column - 1⟩

/-- A position is written as its line and its column with a colon between them. -/
def text (p : Position) : String := toString p.line ++ ":" ++ toString p.column

@[simp] theorem before_next (p : Position) : p.next.before = p := rfl

end Position

end Reckon
