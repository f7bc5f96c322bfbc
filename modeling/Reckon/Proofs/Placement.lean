import Reckon.Proofs.Lexing

/-!
# Tokens without places

Where a glyph stands makes no difference to how a text is cut into tokens: it is recorded in the
tokens and in the errors, and never looked at. So a text can be cut into tokens with all its places
erased, and what comes out are the tokens of the text without their places. This makes texts
comparable that contain the same words at different places.

## Main definitions

* `Glyph.unplaced`, `Token.unplaced` — a glyph and a token without their places.
* `Tokenized` — glyphs are cut into tokens up to the end.

## Main statements

* `Scan.read_unplaced` — a step of the lexer does not depend on places.
* `tokenized_iff` — the tokens of a text, apart from their places.
-/

namespace Reckon

/-! ### Glyphs, gaps and numbers -/

/-- A glyph without its place. -/
def Glyph.unplaced (g : Glyph) : Glyph := ⟨g.char, default⟩

namespace Glyph

variable (g : Glyph)

@[simp] theorem char_unplaced : g.unplaced.char = g.char := rfl
@[simp] theorem isDigit_unplaced : g.unplaced.isDigit = g.isDigit := rfl
@[simp] theorem isLetter_unplaced : g.unplaced.isLetter = g.isLetter := rfl
@[simp] theorem isWhitespace_unplaced : g.unplaced.isWhitespace = g.isWhitespace := rfl
@[simp] theorem isControl_unplaced : g.unplaced.isControl = g.isControl := rfl
@[simp] theorem isNewline_unplaced : g.unplaced.isNewline = g.isNewline := rfl
@[simp] theorem isEnd_unplaced : g.unplaced.isEnd = g.isEnd := rfl
@[simp] theorem is_unplaced (c : Char) : g.unplaced.is c = g.is c := rfl
@[simp] theorem isAny_unplaced (cs : List Char) : g.unplaced.isAny cs = g.isAny cs := rfl
@[simp] theorem isSign_unplaced : g.unplaced.isSign = g.isSign := rfl
@[simp] theorem isExponentMark_unplaced : g.unplaced.isExponentMark = g.isExponentMark := rfl

end Glyph

theorem nextIs_map {f : Glyph → Glyph} {p : Glyph → Bool} (hp : ∀ g, p (f g) = p g)
    (gs : List Glyph) : nextIs p (gs.map f) = nextIs p gs := by
  cases gs with
  | nil => rfl
  | cons g gs => exact hp g

/-- Gaps do not depend on places. -/
theorem Gap.read_unplaced (part : Part) (gs : List Glyph) :
    read part (gs.map Glyph.unplaced) =
      ⟨(read part gs).glyphs.map Glyph.unplaced, (read part gs).rest.map Glyph.unplaced,
        (read part gs).closed⟩ := by
  fun_induction read part gs
  case case1 => rfl
  case case11 g he _ =>
    rw [List.map_cons, List.map_nil, read.eq_def]
    simp [he, read, cons]
  all_goals
    simp only [List.map_cons, List.map_nil, cons] at *
    rw [read.eq_def]
    simp only [*, Glyph.isWhitespace_unplaced, Glyph.is_unplaced, Glyph.isEnd_unplaced,
      Glyph.isNewline_unplaced, Bool.false_eq_true, if_true, if_false, cons]

/-- A change of glyphs that a number does not notice. -/
structure NumberTail.Unseen (f : Glyph → Glyph) : Prop where
  isDigit (g : Glyph) : (f g).isDigit = g.isDigit
  isSign (g : Glyph) : (f g).isSign = g.isSign
  isExponentMark (g : Glyph) : (f g).isExponentMark = g.isExponentMark
  is_point (g : Glyph) : (f g).is '.' = g.is '.'
  is_underscore (g : Glyph) : (f g).is '_' = g.is '_'

/-- A number does not depend on what it does not notice. -/
theorem NumberTail.read_map {f : Glyph → Glyph} (hf : Unseen f) (kind : Token.Kind)
    (gs : List Glyph) :
    read kind (gs.map f) =
      ⟨(read kind gs).glyphs.map f, (read kind gs).rest.map f, (read kind gs).kind,
        (read kind gs).fault⟩ := by
  have hd := nextIs_map (p := Glyph.isDigit) hf.isDigit
  have hs := nextIs_map (p := fun h => h.isDigit || h.isSign) fun g => by
    rw [hf.isDigit, hf.isSign]
  fun_induction read kind gs
  case case1 => rfl
  -- After an exponent mark one more glyph is looked at, which the map has to be pushed past.
  case case7 | case8 =>
    simp only [List.map_cons, nextIs_cons] at *
    rw [read.eq_def]
    simp_all [nextIs_cons, cons, hf.isDigit, hf.isSign, hf.isExponentMark, hf.is_point,
      hf.is_underscore]
  all_goals
    simp only [List.map_cons, List.map_nil, cons] at *
    rw [read.eq_def]
    simp only [*, hf.isDigit, hf.isExponentMark, hf.is_point, hf.is_underscore, Bool.false_eq_true,
      if_true, if_false, cons]

theorem NumberTail.unseen_unplaced : Unseen Glyph.unplaced where
  isDigit _ := rfl
  isSign _ := rfl
  isExponentMark _ := rfl
  is_point _ := rfl
  is_underscore _ := rfl

/-! ### Lexemes -/

/-- A token without its place. -/
def Token.unplaced (t : Token) : Token := { t with position := default }

theorem ok_of_toOption {β : Type} {x : Except Error β} {b : β} (h : x.toOption = some b) :
    x = .ok b := by
  cases x with
  | error e => cases h
  | ok b' => rw [Option.some.inj h]

namespace Lexeme

variable (pipes : Bool) (g : Glyph) (gs : List Glyph)

theorem numberSource_unplaced : numberSource (gs.map Glyph.unplaced) = numberSource gs := by
  rw [numberSource, List.map_map]
  rfl

theorem beginsNumber_unplaced :
    beginsNumber g.unplaced (gs.map Glyph.unplaced) = beginsNumber g gs := by
  have hd := nextIs_map (f := Glyph.unplaced) (p := Glyph.isDigit) fun _ => rfl
  have hp := nextIs_map (f := Glyph.unplaced) (p := (·.is '.')) fun _ => rfl
  simp only [beginsNumber, Glyph.isDigit_unplaced, Glyph.is_unplaced, hd, hp, ← List.map_tail]

theorem isBracket_unplaced :
    isBracket pipes g.unplaced (gs.map Glyph.unplaced) = isBracket pipes g gs := by
  have hp := nextIs_map (f := Glyph.unplaced) (p := (·.is '|')) fun _ => rfl
  simp only [isBracket, Glyph.isAny_unplaced, Glyph.is_unplaced, hp]

/-- The second lexeme is the first one without its places. -/
structure Unplaced (l l' : Lexeme) : Prop where
  rest : l'.rest = l.rest.map Glyph.unplaced
  outcome : l'.outcome.toOption = l.outcome.toOption.map Token.unplaced

theorem number_unplaced : Unplaced (number g gs) (number g.unplaced (gs.map Glyph.unplaced)) := by
  obtain ⟨kind, hkind⟩ : ∃ kind, kind = if g.is '.' then Token.Kind.decimal else .integer :=
    ⟨_, rfl⟩
  have hkind' : (if g.unplaced.is '.' then Token.Kind.decimal else .integer) = kind := hkind.symm
  have hsource := numberSource_unplaced (g :: (NumberTail.read kind gs).glyphs)
  rw [List.map_cons] at hsource
  have hread := NumberTail.read_map NumberTail.unseen_unplaced kind gs
  refine ⟨?_, ?_⟩
  · simp only [number, hkind', ← hkind, hread]
  · simp only [number, hkind', ← hkind, hread, hsource]
    cases (NumberTail.read kind gs).fault with
    | none => rfl
    | some fault => cases fault <;> rfl

theorem name_unplaced : Unplaced (name g gs) (name g.unplaced (gs.map Glyph.unplaced)) := by
  have hp : isNamePart ∘ Glyph.unplaced = isNamePart := rfl
  refine ⟨?_, ?_⟩
  · simp only [name, List.dropWhile_map, hp]
  · have hchar : (fun g : Glyph => g.char) ∘ Glyph.unplaced = fun g => g.char := rfl
    simp only [name, List.takeWhile_map, hp, List.map_cons, List.map_map, hchar]
    rfl

theorem bracket_unplaced :
    Unplaced (bracket g gs) (bracket g.unplaced (gs.map Glyph.unplaced)) := by
  refine ⟨rfl, ?_⟩
  cases he : g.isEnd with
  | true =>
    simp only [bracket, Token.ofGlyph, Glyph.isEnd_unplaced, he, if_true]
    rfl
  | false =>
    simp only [bracket, Token.ofGlyph, Glyph.isEnd_unplaced, he, Bool.false_eq_true, if_false]
    rfl

theorem symbol_unplaced : Unplaced (symbol g gs) (symbol g.unplaced (gs.map Glyph.unplaced)) := by
  cases gs with
  | nil => exact ⟨rfl, rfl⟩
  | cons h hs =>
    have hp : isPair g.unplaced h.unplaced = isPair g h := rfl
    simp only [symbol, List.map_cons, hp]
    split <;> exact ⟨rfl, rfl⟩

theorem read_unplaced :
    Unplaced (read pipes g gs) (read pipes g.unplaced (gs.map Glyph.unplaced)) := by
  simp only [read, beginsNumber_unplaced, Glyph.isLetter_unplaced, isBracket_unplaced,
    Glyph.isControl_unplaced]
  split
  · exact number_unplaced g gs
  split
  · exact name_unplaced g gs
  split
  · exact bracket_unplaced g gs
  by_cases hc : g.isControl
  · simp only [hc, if_true]
    exact ⟨rfl, rfl⟩
  · simp only [hc]
    exact symbol_unplaced g gs

end Lexeme

theorem Scan.read_unplaced (pipes : Bool) (last last' : Position) (gs : List Glyph) :
    (read pipes last' (gs.map Glyph.unplaced)).rest = (read pipes last gs).rest.map Glyph.unplaced ∧
      (read pipes last' (gs.map Glyph.unplaced)).outcome.toOption =
        (read pipes last gs).outcome.toOption.map (Option.map Token.unplaced) := by
  simp only [read, Gap.read_unplaced]
  split
  · cases (Gap.read .blank gs).rest with
    | nil => exact ⟨rfl, rfl⟩
    | cons g rest =>
      obtain ⟨hrest, hout⟩ := Lexeme.read_unplaced pipes g rest
      simp only [List.map_cons]
      by_cases he : g.isEnd
      · simp only [Glyph.isEnd_unplaced, he, if_true]
        exact ⟨rfl, rfl⟩
      · simp only [Glyph.isEnd_unplaced, he]
        refine ⟨hrest, ?_⟩
        have hmap {β γ : Type} (x : Except Error β) (f : β → γ) :
            (x.map f).toOption = x.toOption.map f := by
          cases x <;> rfl
        show ((Lexeme.read pipes g.unplaced (rest.map Glyph.unplaced)).outcome.map some).toOption =
          ((Lexeme.read pipes g rest).outcome.map some).toOption.map _
        rw [hmap, hmap, hout, Option.map_map, Option.map_map]
        rfl
  · exact ⟨rfl, rfl⟩

/-- Glyphs are cut into tokens up to the end. -/
inductive Tokenized (pipes : Bool) : List Glyph → List Token → Prop
  | ending {gs} (h : (Scan.read pipes default gs).outcome = .ok none) : Tokenized pipes gs []
  | token {gs t ts} (h : (Scan.read pipes default gs).outcome = .ok (some t))
      (hts : Tokenized pipes (Scan.read pipes default gs).rest ts) : Tokenized pipes gs (t :: ts)

namespace Tokenized

variable {pipes : Bool} {gs : List Glyph} {ts us : List Token}

/-- The tokens depend on the first step and what it leaves. -/
theorem iff_of_scan {gs' : List Glyph}
    (hout : (Scan.read pipes default gs).outcome = (Scan.read pipes default gs').outcome)
    (hrest : (Scan.read pipes default gs).rest = (Scan.read pipes default gs').rest) :
    Tokenized pipes gs ts ↔ Tokenized pipes gs' ts := by
  constructor
  · intro h
    cases h with
    | ending h => exact .ending (hout ▸ h)
    | token h hts => exact .token (hout ▸ h) (hrest ▸ hts)
  · intro h
    cases h with
    | ending h => exact .ending (hout.trans h)
    | token h hts => exact .token (hout.trans h) (hrest.symm ▸ hts)

/-- Tokens that are cut off are the first ones. -/
theorem exists_of_cuts {rest : List Glyph} (hc : Cuts pipes default gs us rest)
    (h : Tokenized pipes gs ts) : ∃ vs, ts = us ++ vs ∧ Tokenized pipes rest vs := by
  induction hc generalizing ts with
  | none => exact ⟨ts, rfl, h⟩
  | step hstep _ ih =>
    cases h with
    | ending hend => rw [hend] at hstep; cases hstep
    | token htoken hts =>
      rw [htoken] at hstep
      obtain rfl := Option.some.inj (Except.ok.inj hstep)
      obtain ⟨vs, rfl, hvs⟩ := ih hts
      exact ⟨vs, rfl, hvs⟩

/-- A token begins at the first glyph. -/
theorem iff_of_ends {g : Glyph} (hg : Gap.Ends g gs) (he : g.isEnd = false) :
    Tokenized pipes (g :: gs) ts ↔ ∃ t vs, ts = t :: vs ∧
      (Lexeme.read pipes g gs).outcome = .ok t ∧
        Tokenized pipes (Lexeme.read pipes g gs).rest vs := by
  have hscan := Scan.read_of_ends pipes default hg he
  constructor
  · intro h
    cases h with
    | ending h =>
      rw [hscan] at h
      cases ho : (Lexeme.read pipes g gs).outcome <;> rw [ho] at h <;> cases h
    | @token _ t vs h hvs =>
      rw [hscan] at h hvs
      refine ⟨t, vs, rfl, ?_, hvs⟩
      cases ho : (Lexeme.read pipes g gs).outcome with
      | error e => rw [ho] at h; cases h
      | ok t' =>
        rw [ho] at h
        rw [Option.some.inj (Except.ok.inj h)]
  · rintro ⟨t, vs, rfl, ho, hvs⟩
    refine .token ?_ ?_
    · rw [hscan, ho]
      rfl
    · rw [hscan]
      exact hvs

/-- Whitespace in front is skipped. -/
theorem iff_of_isWhitespace {g : Glyph} (hg : g.isWhitespace) :
    Tokenized pipes (g :: gs) ts ↔ Tokenized pipes gs ts := by
  obtain ⟨hout, hrest⟩ := Scan.read_of_isWhitespace pipes default hg gs
  exact iff_of_scan hout hrest

theorem of_cuts {rest : List Glyph} {vs : List Token} (hc : Cuts pipes default gs us rest)
    (h : Tokenized pipes rest vs) : Tokenized pipes gs (us ++ vs) := by
  induction hc with
  | none => exact h
  | step hstep _ ih => exact .token hstep (ih h)

/-- The first tokens can be cut off. -/
theorem exists_cuts (h : Tokenized pipes gs (us ++ ts)) :
    ∃ rest, Cuts pipes default gs us rest ∧ Tokenized pipes rest ts := by
  induction us generalizing gs with
  | nil => exact ⟨gs, .none, h⟩
  | cons u us ih =>
    cases h with
    | token htoken hts =>
      obtain ⟨rest, hcuts, hrest⟩ := ih hts
      exact ⟨rest, .step htoken hcuts, hrest⟩

end Tokenized

/-! ### Tokens of a source -/

namespace Lexer

variable {l : Lexer}

theorem next_unplaced (l : Lexer) :
    (Scan.read l.pipeBrackets default (l.ahead.map Glyph.unplaced)).rest =
        (l.advance l.next).ahead.map Glyph.unplaced ∧
      (Scan.read l.pipeBrackets default (l.ahead.map Glyph.unplaced)).outcome.toOption =
        l.next.outcome.toOption.map (Option.map Token.unplaced) :=
  Scan.read_unplaced l.pipeBrackets l.last default l.ahead

/-- The tokens of a lexer, apart from their places, are cut off its glyphs without places. -/
theorem tokenized_of_tokens {ts : List Token} {p : Position} (hl : l.failure = none)
    (h : l.tokens = ⟨ts, .ok p⟩) :
    Tokenized l.pipeBrackets (l.ahead.map Glyph.unplaced) (ts.map Token.unplaced) := by
  have hending : l.tokens.ending = .ok p := congrArg Tokens.ending h
  have hts : l.tokens.ahead = ts := congrArg Tokens.ahead h
  clear h
  induction ts generalizing l with
  | nil =>
    obtain ⟨-, hout⟩ := next_unplaced l
    obtain ⟨hnext, -⟩ | ⟨t, -, hcons, -⟩ := step_of_ending hl hending
    · rw [hnext] at hout
      exact .ending (ok_of_toOption hout)
    · rw [hcons] at hts
      cases hts
  | cons t ts ih =>
    obtain ⟨hrest, hout⟩ := next_unplaced l
    obtain ⟨-, hnil, -⟩ | ⟨t', hnext, hcons, hending'⟩ := step_of_ending hl hending
    · rw [hnil] at hts
      cases hts
    · obtain ⟨rfl, htail⟩ := List.cons.inj (hcons.symm.trans hts)
      have hmore := ih (l := l.advance l.next) hl hending' htail
      rw [hnext] at hout
      exact .token (ok_of_toOption hout) (hrest ▸ hmore)

/-- A lexer has tokens up to the end if these can be cut off its glyphs without places. -/
theorem tokens_of_tokenized {us : List Token} (hl : l.failure = none)
    (h : Tokenized l.pipeBrackets (l.ahead.map Glyph.unplaced) us) :
    ∃ ts p, l.tokens = ⟨ts, .ok p⟩ ∧ ts.map Token.unplaced = us := by
  induction us generalizing l with
  | nil =>
    obtain ⟨-, hout⟩ := next_unplaced l
    cases h with
    | ending h =>
      rw [h] at hout
      obtain ⟨t?, ht?, hnone⟩ := Option.map_eq_some_iff.1 hout.symm
      obtain rfl := Option.map_eq_none_iff.1 hnone
      exact ⟨[], _, tokens_of_end hl (ok_of_toOption ht?), rfl⟩
  | cons u us ih =>
    obtain ⟨hrest, hout⟩ := next_unplaced l
    cases h with
    | token h hus =>
      rw [h] at hout
      obtain ⟨t?, ht?, hsome⟩ := Option.map_eq_some_iff.1 hout.symm
      obtain ⟨t, rfl, rfl⟩ := Option.map_eq_some_iff.1 hsome
      rw [hrest] at hus
      obtain ⟨ts, p, hts, rfl⟩ := ih (l := l.advance l.next) hl hus
      refine ⟨t :: ts, p, ?_, rfl⟩
      rw [tokens_of_token hl (ok_of_toOption ht?), hts]

end Lexer

/-- The glyphs of bytes, without places. -/
def Source.plain (bytes : List UInt8) : List Glyph :=
  bytes.map fun b => ⟨Char.ofUInt8 b, default⟩

theorem Source.plain_append (bytes bytes' : List UInt8) :
    plain (bytes ++ bytes') = plain bytes ++ plain bytes' :=
  List.map_append

theorem Source.unplaced_glyphs (s : Source) : s.glyphs.map Glyph.unplaced = plain s.bytes := by
  have hfrom : ∀ (bytes : List UInt8) (p : Position),
      (glyphsFrom p bytes).map Glyph.unplaced = plain bytes := by
    intro bytes
    induction bytes with
    | nil => exact fun _ => rfl
    | cons b bytes ih =>
      intro p
      rw [glyphsFrom, List.map_cons, ih]
      rfl
  exact hfrom s.bytes s.position

/-- The tokens of a text. -/
def Settings.tokens (settings : Settings) (bytes : List UInt8) : Tokens :=
  (Lexer.ofSource settings { bytes }).tokens

/-- A text has tokens up to its end if and only if these, apart from their places, are cut off its
glyphs. -/
theorem tokenized_iff {settings : Settings} {bytes : List UInt8} {us : List Token} :
    Tokenized settings.pipeBrackets (Source.plain bytes) us ↔
      ∃ ts p, settings.tokens bytes = ⟨ts, .ok p⟩ ∧ ts.map Token.unplaced = us := by
  have hplain : (Lexer.ofSource settings { bytes }).ahead.map Glyph.unplaced = Source.plain bytes :=
    Source.unplaced_glyphs { bytes }
  constructor
  · intro h
    rw [← hplain] at h
    exact Lexer.tokens_of_tokenized rfl h
  · rintro ⟨ts, p, hts, rfl⟩
    rw [← hplain]
    exact Lexer.tokenized_of_tokens rfl hts

end Reckon
