import Reckon.Error

/-!
# Lexemes

A `Lexeme` is a token together with the glyphs it is made of. Which kind of token begins at a glyph
is decided by that glyph and at most two more:

* a number begins with a digit, or with a minus sign, a point or both before a digit;
* a name begins with a letter;
* the brackets are tokens of one character, and so is a single `|` if the settings say so;
* any other visible character begins a symbol, which takes in a second character if that is `=` or
  if the two are `&&`, `||` or `**`.

A number takes in digits, underscores before digits, one point, and one exponent; after the exponent
no point may follow. A name takes in letters, digits and underscores.

Each reading also tells how many glyphs past its own it has looked at, because a source that fails
must not be looked at further than that.

## Main statements

* `Lexeme.glyphs_append_rest` — nothing is lost.
* `Lexeme.glyphs_ne_nil` — a token is made of at least one glyph.
-/

namespace Reckon

/-- Whether the next glyph is there and satisfies `p`. -/
def nextIs (p : Glyph → Bool) (gs : List Glyph) : Bool := gs.head?.any p

/-- Whether a glyph is a plus or minus sign. -/
def Glyph.isSign (g : Glyph) : Bool := g.isAny ['+', '-']

/-- Whether a glyph may stand before an exponent. -/
def Glyph.isExponentMark (g : Glyph) : Bool := g.isAny ['e', 'E']

/-- How a number may fail to be read: by a point too many or by an exponent too many. -/
inductive NumberFault where
  | point
  | exponent
  deriving DecidableEq

/-- The part of a number that is read from some place in it on. -/
structure NumberTail where
  glyphs : List Glyph
  rest : List Glyph
  kind : Token.Kind
  fault : Option NumberFault

namespace NumberTail

/-- Adds a glyph in front. -/
def cons (g : Glyph) (t : NumberTail) : NumberTail := { t with glyphs := g :: t.glyphs }

/-- Reads on in a number that is of class `kind` so far. -/
def read : Token.Kind → List Glyph → NumberTail
  | kind, [] => ⟨[], [], kind, none⟩
  | kind, g :: gs =>
    if g.isDigit || (g.is '_' && nextIs Glyph.isDigit gs) then
      (read kind gs).cons g
    else if g.is '.' then
      if kind = .integer then
        (read .decimal gs).cons g
      else
        ⟨[], g :: gs, kind, some .point⟩
    else if g.isExponentMark && nextIs (fun h => h.isDigit || h.isSign) gs then
      if kind = .scientific then
        ⟨[], g :: gs, kind, some .exponent⟩
      else
        match gs with
        | [] => ⟨[], [g], kind, none⟩
        | h :: hs =>
          if h.isSign then
            ((read .scientific hs).cons h).cons g
          else
            (read .scientific (h :: hs)).cons g
    else
      ⟨[], g :: gs, kind, none⟩

@[simp] theorem glyphs_cons (g : Glyph) (t : NumberTail) : (t.cons g).glyphs = g :: t.glyphs := rfl

@[simp] theorem rest_cons (g : Glyph) (t : NumberTail) : (t.cons g).rest = t.rest := rfl

theorem glyphs_append_rest (kind : Token.Kind) (gs : List Glyph) :
    (read kind gs).glyphs ++ (read kind gs).rest = gs := by
  fun_induction read kind gs <;> simp_all

end NumberTail

/-- A token with the glyphs it is made of, or the reason why there is none. -/
structure Lexeme where
  glyphs : List Glyph
  rest : List Glyph
  outcome : Except Error Token
  /-- How many glyphs of the rest have been looked at. -/
  looked : Nat

namespace Lexeme

/-- Whether a number begins at `g`, before `gs`. -/
def beginsNumber (g : Glyph) (gs : List Glyph) : Bool :=
  g.isDigit ||
  (g.is '-' && (nextIs Glyph.isDigit gs ||
    (nextIs (·.is '.') gs && nextIs Glyph.isDigit gs.tail))) ||
  (g.is '.' && nextIs Glyph.isDigit gs)

/-- How a number is recorded: its exponent mark as a capital. -/
def numberSource (gs : List Glyph) : List Char :=
  gs.map fun g => if g.isExponentMark then 'E' else g.char

/-- The number that begins at `g`. -/
def number (g : Glyph) (gs : List Glyph) : Lexeme :=
  let tail := NumberTail.read (if g.is '.' then .decimal else .integer) gs
  let source := numberSource (g :: tail.glyphs)
  let place := (tail.rest.head?.map (·.position)).getD g.position
  { glyphs := g :: tail.glyphs
    rest := tail.rest
    outcome :=
      match tail.fault with
      | some .point => .error (.repeatedPoint (String.ofList source) place)
      | some .exponent => .error (.repeatedExponent (String.ofList source) place)
      | none =>
        .ok ⟨tail.kind, String.ofList (source.filter (· != '_')), "", String.ofList source,
          g.position⟩
    looked := 2 }

/-- Whether a glyph may stand in a name after its first letter. -/
def isNamePart (g : Glyph) : Bool := g.isDigit || g.isLetter || g.is '_'

/-- The name that begins at `g`. -/
def name (g : Glyph) (gs : List Glyph) : Lexeme :=
  let glyphs := g :: gs.takeWhile isNamePart
  let text := String.ofList (glyphs.map (·.char))
  { glyphs
    rest := gs.dropWhile isNamePart
    outcome := .ok ⟨.identifier, text, "", text, g.position⟩
    looked := 1 }

/-- Whether `g` is a bracket. With `pipes` a `|` that no other `|` follows is one too. -/
def isBracket (pipes : Bool) (g : Glyph) (gs : List Glyph) : Bool :=
  g.isAny ['(', '[', '{', '}', ']', ')'] || (pipes && g.is '|' && !nextIs (·.is '|') gs)

/-- The bracket `g`. -/
def bracket (g : Glyph) (gs : List Glyph) : Lexeme :=
  { glyphs := [g], rest := gs, outcome := .ok (.ofGlyph .symbol g), looked := 1 }

/-- Whether `h` after `g` makes a symbol of two characters. -/
def isPair (g h : Glyph) : Bool :=
  h.is '=' || (h.char == g.char && h.isAny ['&', '|', '*'])

/-- The symbol `s` that begins at `p`. -/
def symbolToken (s : List Char) (p : Position) : Token :=
  ⟨.symbol, "", String.ofList s, String.ofList s, p⟩

/-- The symbol that begins at `g`. -/
def symbol (g : Glyph) (gs : List Glyph) : Lexeme :=
  match gs with
  | h :: hs =>
    if isPair g h then
      { glyphs := [g, h]
        rest := hs
        outcome := .ok (symbolToken [g.char, h.char] g.position)
        looked := 0 }
    else
      { glyphs := [g]
        rest := h :: hs
        outcome := .ok (symbolToken [g.char] g.position)
        looked := if g.is '-' && h.is '.' then 2 else 1 }
  | [] =>
    { glyphs := [g], rest := [], outcome := .ok (symbolToken [g.char] g.position), looked := 1 }

/-- The lexeme that begins at `g`, before `gs`. -/
def read (pipes : Bool) (g : Glyph) (gs : List Glyph) : Lexeme :=
  if beginsNumber g gs then
    number g gs
  else if g.isLetter then
    name g gs
  else if isBracket pipes g gs then
    bracket g gs
  else if g.isControl then
    { glyphs := []
      rest := g :: gs
      outcome := .error (.invalidCharacter g.char g.position)
      looked := 2 }
  else
    symbol g gs

/-- What a lexeme is made of and what it leaves are together what there was. -/
theorem glyphs_append_rest (pipes : Bool) (g : Glyph) (gs : List Glyph) :
    (read pipes g gs).glyphs ++ (read pipes g gs).rest = g :: gs := by
  unfold read
  split
  · simp [number, NumberTail.glyphs_append_rest]
  split
  · simp [name, List.takeWhile_append_dropWhile]
  split
  · simp [bracket]
  split
  · simp
  · unfold symbol
    split
    · split <;> simp
    · simp

/-- A token is made of at least one glyph. -/
theorem glyphs_ne_nil {pipes : Bool} {g : Glyph} {gs : List Glyph} {t : Token}
    (h : (read pipes g gs).outcome = .ok t) : (read pipes g gs).glyphs ≠ [] := by
  unfold read at h ⊢
  split
  · simp [number]
  split
  · simp [name]
  split
  · simp [bracket]
  split
  · simp_all
  · unfold symbol
    split
    · split <;> simp
    · simp

end Lexeme

end Reckon
