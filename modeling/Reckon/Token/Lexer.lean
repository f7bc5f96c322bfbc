import Reckon.Settings
import Reckon.Text.Source
import Reckon.Token.Gap
import Reckon.Token.Lexeme

/-!
# Tokens of a source

A `Lexer` holds the glyphs that a source still delivers and cuts one token after another off their
front. It looks at the source only as far as the next token requires. How far that is can be
observed in two ways: it is the place of the end token, and a source that fails makes a token fail
as soon as a look goes past the last glyph delivered.

The lexer is itself a producer, of tokens, so that they can be looked ahead at.

## Main definitions

* `Scan.read` — one step: a gap and then a token, the end, or an error.
* `Lexer.fetch` — the next token, with what a failing source makes of it.
* `Lexer.tokens` — all tokens, up to the end or to the first error.

## Main statements

* `Scan.glyphs_append_rest` — nothing is lost.
* `Lexer.length_lt_of_fetch` — a token takes at least one glyph.
-/

namespace Reckon

/-- One step of a lexer: the gap that it skips, the glyphs of the token, and what is left. -/
structure Scan where
  gap : List Glyph
  lexeme : List Glyph
  rest : List Glyph
  /-- The token, `none` at the end, or an error. -/
  outcome : Except Error (Option Token)
  /-- How many glyphs of the rest have been looked at. -/
  looked : Nat

/-- Reads one step. `last` is how far the source is read when nothing is left of it. -/
def Scan.read (pipes : Bool) (last : Position) (ahead : List Glyph) : Scan :=
  let gap := Gap.read .blank ahead
  if gap.closed then
    match gap.rest with
    | [] => ⟨gap.glyphs, [], [], .ok none, 1⟩
    | g :: gs =>
      if g.isEnd then
        ⟨gap.glyphs, [], g :: gs, .ok none, 1⟩
      else
        let lexeme := Lexeme.read pipes g gs
        ⟨gap.glyphs, lexeme.glyphs, lexeme.rest, lexeme.outcome.map some, lexeme.looked⟩
  else
    let place := (gap.rest.head?.map (·.position)).getD last
    ⟨gap.glyphs, [], gap.rest, .error (.unclosedComment place), 1⟩

/-- A step takes its gap and its lexeme off the front of the glyphs. -/
theorem Scan.glyphs_append_rest (pipes : Bool) (last : Position) (ahead : List Glyph) :
    (read pipes last ahead).gap ++ (read pipes last ahead).lexeme ++
      (read pipes last ahead).rest = ahead := by
  have hg := Gap.glyphs_append_rest .blank ahead
  unfold read
  simp only
  split
  · split
    · next h => simp_all
    · next g gs h =>
      split
      · simp_all
      · simp only [List.append_assoc, Lexeme.glyphs_append_rest]
        rw [← h, hg]
  · simpa using hg

/-- A step that gives a token takes at least one glyph. -/
theorem Scan.length_rest_lt {pipes : Bool} {last : Position} {ahead : List Glyph} {t : Token}
    (h : (read pipes last ahead).outcome = .ok (some t)) :
    (read pipes last ahead).rest.length < ahead.length := by
  have hl := congrArg List.length (glyphs_append_rest pipes last ahead)
  suffices hne : (read pipes last ahead).lexeme ≠ [] by
    have := List.length_pos_iff.2 hne
    simp only [List.length_append] at hl
    omega
  unfold read at h ⊢
  simp only at h ⊢
  by_cases hc : (Gap.read .blank ahead).closed
  · simp only [hc, if_true] at h ⊢
    split at h
    · simp at h
    · next g gs hr =>
      split at h
      · simp at h
      · next he =>
        simp only [he]
        cases ho : (Lexeme.read pipes g gs).outcome with
        | error e => simp [ho, Except.map] at h
        | ok t' => simpa using Lexeme.glyphs_ne_nil ho
  · simp [hc] at h

/-- A source of tokens. -/
structure Lexer where
  pipeBrackets : Bool
  /-- The glyphs that the source still delivers. -/
  ahead : List Glyph
  /-- How many of them have been fetched from the source already. -/
  fetched : Nat
  /-- How far the source is read when nothing is left of it. -/
  last : Position
  /-- The failure that the source reports after its last glyph. -/
  failure : Option String

namespace Lexer

/-- The tokens of a source. -/
def ofSource (settings : Settings) (source : Source) : Lexer :=
  { pipeBrackets := settings.pipeBrackets
    ahead := source.glyphs
    fetched := 0
    last := source.last
    failure := source.failure }

/-- How far the source has been read. -/
def position (l : Lexer) : Position :=
  match l.ahead[l.fetched]? with
  | some g => g.position.before
  | none => l.last

/-- The lexer after a step. -/
def advance (l : Lexer) (s : Scan) : Lexer :=
  { l with
    ahead := s.rest
    fetched := max (l.fetched - (s.gap.length + s.lexeme.length)) s.looked }

/-- What a step gives. If the source fails, a step that would have to look past its last glyph
fails too. -/
def outcome (l : Lexer) (s : Scan) : Except Error (Option Token) :=
  match l.failure with
  | some reason => if s.rest.length < s.looked then .error (.unreadable reason) else s.outcome
  | none => s.outcome

/-- The next token, or `none` at the end. -/
def fetch : EStateM Error Lexer (Option Token) := fun l =>
  let s := Scan.read l.pipeBrackets l.last l.ahead
  match l.outcome s with
  | .ok token? => .ok token? (l.advance s)
  | .error e => .error e (l.advance s)

/-- A token takes at least one glyph. -/
theorem length_lt_of_fetch {l l' : Lexer} {t : Token} (h : fetch l = .ok (some t) l') :
    l'.ahead.length < l.ahead.length := by
  unfold fetch at h
  simp only at h
  split at h
  · next token? ho =>
    obtain ⟨rfl, rfl⟩ := EStateM.Result.ok.inj h
    refine Scan.length_rest_lt (t := t) ?_
    unfold outcome at ho
    split at ho
    · split at ho
      · simp at ho
      · exact ho
    · exact ho
  · simp at h

/-- The end token stands where the source has been read to. -/
instance : Producer Lexer Token Error where
  fetch := fetch
  endItem l := .ending l.position

end Lexer

/-- A list of tokens and what comes after the last: the end, at a place, or an error. -/
structure Tokens where
  ahead : List Token
  ending : Except Error Position

namespace Lexer

/-- All tokens up to the end or the first error. -/
def tokens (l : Lexer) : Tokens :=
  match h : fetch l with
  | .ok (some t) l' =>
    have := length_lt_of_fetch h
    let rest := tokens l'
    { rest with ahead := t :: rest.ahead }
  | .ok none l' => ⟨[], .ok l'.position⟩
  | .error e _ => ⟨[], .error e⟩
termination_by l.ahead.length

end Lexer

/-- The tokens of a text, without the end token. -/
def tokenize (s : String) : Except Error (List Token) :=
  let tokens := (Lexer.ofSource {} (.ofString s)).tokens
  tokens.ending.map fun _ => tokens.ahead

end Reckon
