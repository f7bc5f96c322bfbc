import Reckon.Lookahead
import Reckon.Text.Glyph

/-!
# Sources of characters

A `Source` delivers its bytes one after another, each as the character of that number, and then
either reports the end or, if it is broken, reports the same failure each time it is asked.

## Main definitions

* `Source.fetch` — the next glyph, with the position that it gets.
* `Source.glyphs` — all glyphs that a source still delivers.
* `Source.last` — how far it is read once all of them are read.
-/

namespace Reckon

/-- The bytes that are still to come, what happens after them, and how far the source is read. -/
structure Source where
  bytes : List UInt8
  /-- The failure reported after the last byte, in place of the end. -/
  failure : Option String := none
  position : Position := Position.start

namespace Source

/-- A text is delivered as its UTF-8 bytes. -/
def ofString (s : String) : Source := { bytes := s.toUTF8.data.toList }

/-- The next glyph, `none` at the end, or the failure of a broken source. -/
def fetch : EStateM String Source (Option Glyph) := fun s =>
  match s.bytes with
  | b :: rest =>
    let c := Char.ofUInt8 b
    .ok (some ⟨c, s.position.next⟩) { s with bytes := rest, position := s.position.after c }
  | [] =>
    match s.failure with
    | some reason => .error reason s
    | none => .ok none s

/-- The end mark of a source stands where it has been read to. -/
instance : Producer Source Glyph String where
  fetch := fetch
  endItem s := .ending s.position

/-- The glyphs that bytes become when they are read from position `p` on. -/
def glyphsFrom (p : Position) : List UInt8 → List Glyph
  | [] => []
  | b :: rest =>
    let c := Char.ofUInt8 b
    ⟨c, p.next⟩ :: glyphsFrom (p.after c) rest

/-- All glyphs that the source still delivers. -/
def glyphs (s : Source) : List Glyph := glyphsFrom s.position s.bytes

/-- How far the source is read once all its bytes are read. -/
def last (s : Source) : Position := s.bytes.foldl (fun p b => p.after (Char.ofUInt8 b)) s.position

end Source

end Reckon
