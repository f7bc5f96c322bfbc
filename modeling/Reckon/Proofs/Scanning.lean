import Reckon.Proofs.Walks
import Reckon.Token.Lexer

/-!
# Scanning

The lexer as it goes through characters: loops that skip blanks and comments, that read names and
numbers, and that start over after a comment. Each looks at up to three characters ahead, and a look
past the last one shows the end mark or, if the source is broken, fails.

## Main definitions

* `Scanning.token` — the next token.
* `Scanning.settle` — what comes of looks past the last character.

## Main statements

* `Scanning.comesTo_peek_bind` — a look ahead, and then something else.
-/

namespace Reckon

/-- What a lexer knows besides the characters of its source. -/
structure Scanning where
  /-- Whether single pipes are brackets. -/
  pipes : Bool
  /-- How far the source is read when nothing is left of it. -/
  last : Position
  /-- The failure that the source reports after its last character. -/
  failure : Option String

namespace Scanning

open Walk

/-- A procedure that reads from glyphs. -/
abbrev Scanner (β : Type) := Walk Glyph β

/-- What a look past the last glyph shows: the end mark or, if the source is broken, its failure. -/
def edge (s : Scanning) : Except Error Glyph :=
  match s.failure with
  | some reason => .error (.unreadable reason)
  | none => .ok (.ending s.last)

/-- Whether what is ahead from some place on begins with the given characters. -/
def spells (s : Scanning) (offset : Nat) : List Char → Scanner Bool
  | [] => pure true
  | c :: cs => do
    if (← peek s.edge offset).is c then
      spells s (offset + 1) cs
    else
      pure false

/-- Takes the given characters if they are what is ahead. -/
def takes (s : Scanning) (text : List Char) : Scanner Bool := do
  if ← s.spells 0 text then
    drop text.length
    pure true
  else
    pure false

/-! ### Gaps -/

/-- Skips whitespace. -/
def skipBlanks (s : Scanning) : Scanner Unit := do
  if (← peek s.edge 0).isWhitespace then
    discard (consume s.edge)
    s |>.skipBlanks
partial_fixpoint

/-- Skips the rest of a line, but not the line feed. -/
def skipLine (s : Scanning) : Scanner Unit := do
  let g ← peek s.edge 0
  if g.isEnd || g.isNewline then
    pure ()
  else
    discard (consume s.edge)
    s |>.skipLine
partial_fixpoint

/-- Skips what is left of a block comment. -/
def skipBlock (s : Scanning) : Scanner Unit := do
  let g ← peek s.edge 0
  if g.isEnd then
    throw (.unclosedComment g.position)
  else if ← s.takes ['*', '/'] then
    pure ()
  else
    discard (consume s.edge)
    s |>.skipBlock
partial_fixpoint

/-! ### What begins at a glyph -/

/-- Whether a number begins: with a digit, or with a minus sign, a point or both before one. -/
def atNumber (s : Scanning) : Scanner Bool := do
  let g ← peek s.edge 0
  if g.isDigit then
    pure true
  else
    let h ← peek s.edge 1
    if g.is '-' then
      if h.isDigit then
        pure true
      else if h.is '.' then
        return (← peek s.edge 2).isDigit
      else
        pure false
    else
      pure (g.is '.' && h.isDigit)

/-- Whether a bracket is ahead. Inside of a symbol a single pipe is none. -/
def atBracket (s : Scanning) (inSymbol : Bool) : Scanner Bool := do
  let g ← peek s.edge 0
  if g.isAny ['(', '[', '{', '}', ']', ')'] then
    pure true
  else if !inSymbol && s.pipes && g.is '|' then
    return !(← peek s.edge 1).is '|'
  else
    pure false

/-- Whether a symbol begins: with a visible character with which nothing else does. -/
def atSymbol (s : Scanning) : Scanner Bool := do
  let g ← peek s.edge 0
  if g.isEnd || g.isDigit || g.isLetter || g.isWhitespace || g.isControl then
    pure false
  else if ← s.atBracket true then
    pure false
  else if ← s.spells 0 ['/', '*'] then
    pure false
  else if ← s.spells 0 ['/', '/'] then
    pure false
  else if ← s.atNumber then
    pure false
  else
    return !(← peek s.edge 0).isLetter

/-! ### Tokens -/

/-- Reads on in a name. -/
def nameFrom (s : Scanning) (t : Token) : Scanner Token := do
  let g ← peek s.edge 0
  if Lexeme.isNamePart g then
    s |>.nameFrom (t.pushContent (← consume s.edge).char)
  else
    pure t
partial_fixpoint

/-- Reads a name. -/
def name (s : Scanning) : Scanner Token := do
  let g ← consume s.edge
  s.nameFrom ((Token.empty .identifier g.position).pushContent g.char)

/-- Reads a symbol. -/
def symbol (s : Scanning) : Scanner Token := do
  let g ← consume s.edge
  let t := (Token.empty .symbol g.position).pushTrigger g.char
  let h ← peek s.edge 0
  if (g.char == '&' && h.is '&') || (g.char == '|' && h.is '|') || (g.char == '*' && h.is '*') ||
      h.is '=' then
    return t.pushTrigger (← consume s.edge).char
  else
    pure t

/-- Takes the mark of an exponent, and its sign if it has one. -/
def exponent (s : Scanning) (t : Token) : Scanner Token := do
  discard (consume s.edge)
  let t := { t with kind := .scientific }.pushContent 'E'
  if (← peek s.edge 0).isSign then
    return t.pushContent (← consume s.edge).char
  else
    pure t

/-- Reads on in a number. -/
def numberFrom (s : Scanning) (t : Token) : Scanner Token := do
  let g ← peek s.edge 0
  let h ← peek s.edge 1
  if g.isDigit then
    s |>.numberFrom (t.pushContent (← consume s.edge).char)
  else if g.is '_' && h.isDigit then
    s |>.numberFrom (t.pushSource (← consume s.edge).char)
  else if g.is '.' then
    if t.kind = .decimal ∨ t.kind = .scientific then
      throw (.repeatedPoint t.source g.position)
    else
      s |>.numberFrom ({ t with kind := .decimal }.pushContent (← consume s.edge).char)
  else if g.isExponentMark && (h.isDigit || h.isSign) then
    if t.kind = .scientific then
      throw (.repeatedExponent t.source g.position)
    else
      s |>.numberFrom (← s.exponent t)
  else
    pure t
partial_fixpoint

/-- Reads a number. -/
def number (s : Scanning) : Scanner Token := do
  let g ← consume s.edge
  let kind := if g.is '.' then Token.Kind.decimal else .integer
  s.numberFrom ((Token.empty kind g.position).pushContent g.char)

/-- Reads what begins at a glyph that is in no gap. -/
def lexeme (s : Scanning) : Scanner Token := do
  if ← s.atNumber then
    s.number
  else if (← peek s.edge 0).isLetter then
    s.name
  else if ← s.atBracket false then
    return .ofGlyph .symbol (← consume s.edge)
  else if ← s.atSymbol then
    s.symbol
  else
    let g ← peek s.edge 0
    throw (.invalidCharacter g.char g.position)

/-- The next token, or none at the end. After a comment it starts over. -/
def token (s : Scanning) : Scanner (Option Token) := do
  s.skipBlanks
  if (← peek s.edge 0).isEnd then
    pure none
  else if ← s.takes ['/', '/'] then
    s.skipLine
    s |>.token
  else if ← s.takes ['/', '*'] then
    s.skipBlock
    s |>.token
  else
    return some (← s.lexeme)
partial_fixpoint

/-! ### Looks ahead -/

variable {s : Scanning} {edge : Except Error Glyph} {β : Type} {g h : Glyph} {gs rest : List Glyph}
variable {looked : Nat} {o : Except Error β} {f : Glyph → Scanner β}

/-- What a scanner comes to that has looked at some of the glyphs that it leaves: if the source is
broken and has not delivered that many, then it fails. -/
def settle (edge : Except Error Glyph) (looked : Nat) (rest : List Glyph) (o : Except Error β) :
    Except Error (β × List Glyph) :=
  match edge with
  | .error e => if rest.length < looked then .error e else o.map (·, rest)
  | .ok _ => o.map (·, rest)

theorem eq_ending (h : s.edge = .ok g) : g = .ending s.last := by
  unfold edge at h
  split at h
  · cases h
  · exact (Except.ok.inj h).symm

theorem settle_of_lt {e : Error} (h : rest.length < looked) :
    settle (.error e) looked rest o = .error e := if_pos h

theorem settle_of_le (h : ∀ e, edge = .error e → looked ≤ rest.length) :
    settle edge looked rest o = o.map (·, rest) := by
  cases edge with
  | ok g => rfl
  | error e => exact if_neg (Nat.not_lt.2 (h e rfl))

theorem settle_map {γ : Type} (f : β → γ) :
    settle edge looked rest (o.map f) = (settle edge looked rest o).map (Prod.map f id) := by
  have hmap : (o.map f).map (·, rest) = (o.map (·, rest)).map (Prod.map f id) := by cases o <;> rfl
  cases edge with
  | ok g => exact hmap
  | error e =>
    simp only [settle]
    split
    · rfl
    · exact hmap

theorem length_of_item {e : Error} {offset : Nat} (h : item edge gs offset = .ok g)
    (he : edge = .error e) : offset < gs.length := by
  by_contra hlength
  rw [item, List.getElem?_eq_none (Nat.le_of_not_lt hlength), he] at h
  cases h

/-- To look at a glyph, there must be one, or else the source must have ended. -/
theorem comesTo_peek_bind (offset : Nat) (hlooked : gs.length ≤ offset → rest.length < looked)
    (hf : ∀ g, item edge gs offset = .ok g → ComesTo (f g) gs (settle edge looked rest o)) :
    ComesTo (peek edge offset >>= f) gs (settle edge looked rest o) := by
  have hpeek := comesTo_peek edge gs offset
  cases hitem : item edge gs offset with
  | ok g =>
    rw [hitem] at hpeek
    exact hpeek.bind_of_ok (hf g hitem)
  | error e =>
    rw [hitem] at hpeek
    unfold item at hitem
    split at hitem
    · cases hitem
    · next hnone =>
      subst hitem
      rw [settle_of_lt (hlooked (List.getElem?_eq_none_iff.1 hnone))]
      exact hpeek.bind_of_error

theorem comesTo_consume_bind {r : Except Error (β × List Glyph)} (hf : ComesTo (f g) gs r) :
    ComesTo (consume edge >>= f) (g :: gs) r :=
  (comesTo_consume_cons edge g gs).bind_of_ok hf

theorem comesTo_skip_bind {f : Unit → Scanner β} {r : Except Error (β × List Glyph)}
    (hf : ComesTo (f ()) gs r) : ComesTo (discard (consume edge) >>= f) (g :: gs) r :=
  have hskip : ComesTo (discard (consume edge)) (g :: gs) (.ok ((), gs)) :=
    .ok rfl (List.suffix_cons g gs)
  hskip.bind_of_ok hf

theorem comesTo_settled {x : Scanner β} {b : β} (h : ComesTo x gs (.ok (b, rest)))
    (hlooked : ∀ e, edge = .error e → looked ≤ rest.length) :
    ComesTo x gs (settle edge looked rest (.ok b)) := by
  rwa [settle_of_le hlooked]

theorem comesTo_failed {e : Error} (hlooked : ∀ e, edge = .error e → looked ≤ rest.length) :
    ComesTo (throw e : Scanner β) gs (settle edge looked rest (.error e)) := by
  rw [settle_of_le hlooked]
  exact comesTo_throw e gs

theorem comesTo_failed_bind {γ : Type} {e : Error} {f : γ → Scanner β}
    (hlooked : ∀ e, edge = .error e → looked ≤ rest.length) :
    ComesTo (throw e >>= f) gs (settle edge looked rest (.error e)) := by
  rw [settle_of_le hlooked]
  exact (comesTo_throw e gs).bind_of_error

/-- What a look shows is the glyph there or, past the last one, the end mark. -/
theorem item_eq {offset : Nat} (h : item s.edge gs offset = .ok g) :
    gs[offset]? = some g ∨ gs.length ≤ offset ∧ g = .ending s.last := by
  unfold item at h
  split at h
  · next i hi => exact .inl (by rw [hi, Except.ok.inj h])
  · next hnone => exact .inr ⟨List.getElem?_eq_none_iff.1 hnone, eq_ending h⟩

theorem is_ending (q : Position) (c : Char) : (Glyph.ending q).is c = false := rfl

/-- A test that no end mark passes is passed by the next glyph if and only if there is one that
passes it. -/
theorem nextIs_of_item {p : Glyph → Bool}
    (hp : ∀ q, p (.ending q) = false) {n : Nat} (hh : item s.edge (g :: gs) (n + 1) = .ok h) :
    nextIs p (gs.drop n) = p h := by
  have hnext : nextIs p (gs.drop n) = ((g :: gs)[n + 1]?.any p) := by
    rw [nextIs, List.head?_drop, List.getElem?_cons_succ]
  rw [hnext]
  obtain hh | ⟨hlength, rfl⟩ := item_eq hh
  · rw [hh, Option.any_some]
  · rw [List.getElem?_eq_none_iff.2 hlength, Option.any_none, hp]

/-- Past the last glyph a look shows the end mark, unless the source is broken. -/
theorem comesTo_front_nil_bind (hlooked : rest.length < looked)
    (hf : (∀ e, s.edge ≠ .error e) →
      ComesTo (f (.ending s.last)) [] (settle s.edge looked rest o)) :
    ComesTo (peek s.edge 0 >>= f) [] (settle s.edge looked rest o) := by
  refine comesTo_peek_bind 0 (fun _ => hlooked) fun g hg => ?_
  obtain hnone | ⟨-, rfl⟩ := item_eq hg
  · cases hnone
  · exact hf fun e he => Nat.not_lt_zero 0 (length_of_item hg he)

end Scanning

end Reckon
