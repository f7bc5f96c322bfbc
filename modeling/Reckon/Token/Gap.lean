import Reckon.Text.Glyph

/-!
# Gaps between tokens

Between tokens there may be whitespace, line comments from `//` to the end of the line, and block
comments from `/*` to the next `*/`. A `Gap` is what is skipped before a token.

The end mark ends every gap. A block comment that it interrupts leaves the gap open.

## Main statements

* `Gap.glyphs_append_rest` — nothing is lost.
-/

namespace Reckon

/-- What a gap skips, what is left, and whether all its block comments are closed. -/
structure Gap where
  glyphs : List Glyph
  rest : List Glyph
  closed : Bool

namespace Gap

/-- Adds a skipped glyph in front. -/
def cons (g : Glyph) (gap : Gap) : Gap := { gap with glyphs := g :: gap.glyphs }

/-- What a gap is made of. -/
inductive Part where
  | blank
  | lineComment
  | blockComment
  deriving DecidableEq

/-- Reads a gap from inside one of its parts. The line feed that ends a line comment is itself
whitespace. -/
def read : Part → List Glyph → Gap
  | part, [] => ⟨[], [], part != .blockComment⟩
  | .blank, g :: gs =>
    if g.isWhitespace then
      (read .blank gs).cons g
    else
      match gs with
      | [] => ⟨[], [g], true⟩
      | h :: hs =>
        if g.is '/' && h.is '/' then
          ((read .lineComment hs).cons h).cons g
        else if g.is '/' && h.is '*' then
          ((read .blockComment hs).cons h).cons g
        else
          ⟨[], g :: h :: hs, true⟩
  | .lineComment, g :: gs =>
    if g.isEnd then
      ⟨[], g :: gs, true⟩
    else if g.isNewline then
      (read .blank gs).cons g
    else
      (read .lineComment gs).cons g
  | .blockComment, g :: gs =>
    if g.isEnd then
      ⟨[], g :: gs, false⟩
    else
      match gs with
      | [] => (read .blockComment []).cons g
      | h :: hs =>
        if g.is '*' && h.is '/' then
          ((read .blank hs).cons h).cons g
        else
          (read .blockComment (h :: hs)).cons g

@[simp] theorem glyphs_cons (g : Glyph) (gap : Gap) : (gap.cons g).glyphs = g :: gap.glyphs := rfl

@[simp] theorem rest_cons (g : Glyph) (gap : Gap) : (gap.cons g).rest = gap.rest := rfl

@[simp] theorem closed_cons (g : Glyph) (gap : Gap) : (gap.cons g).closed = gap.closed := rfl

/-- What a gap skips and what it leaves are together what there was. -/
theorem glyphs_append_rest (part : Part) (gs : List Glyph) :
    (read part gs).glyphs ++ (read part gs).rest = gs := by
  fun_induction read part gs <;> simp_all

end Gap

end Reckon
