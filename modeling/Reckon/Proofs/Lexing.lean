import Reckon.Operator
import Reckon.Token.Lexer
import Mathlib.Data.List.Basic

/-!
# Cutting texts into tokens

What the lexer does with glyphs, without the record of how far its source has been read. `Cuts` says
that some tokens are cut off the front of glyphs and what is left then. A step is composed of the
gap before a token and of the token itself, and each kind of token has a lemma that says which glyphs
it takes.

## Main definitions

* `Cuts` — tokens are cut off the front of glyphs.

## Main statements

* `Lexer.tokens_of_cuts` — the tokens of a lexer are those that are cut off its glyphs.
* `Lexeme.read_name`, `Lexeme.read_plain` — names and numbers are taken whole.
-/

namespace Reckon

theorem nextIs_cons (p : Glyph → Bool) (g : Glyph) (gs : List Glyph) :
    nextIs p (g :: gs) = p g := rfl

/-! ### Gaps -/

/-- A token may begin at a glyph: it is neither blank nor the beginning of a comment. -/
def Gap.Ends (g : Glyph) (gs : List Glyph) : Prop :=
  g.isWhitespace = false ∧ (g.is '/' → nextIs (fun h => h.is '/' || h.is '*') gs = false)

theorem Gap.read_of_ends {g : Glyph} {gs : List Glyph} (h : Ends g gs) :
    read .blank (g :: gs) = ⟨[], g :: gs, true⟩ := by
  obtain ⟨hw, hc⟩ := h
  cases gs with
  | nil => simp [read, hw]
  | cons h hs =>
    by_cases hg : g.is '/'
    · have hh : h.is '/' = false ∧ h.is '*' = false := by simpa [nextIs] using hc hg
      simp [read, hw, hh]
    · simp [read, hw, hg]

theorem Gap.read_of_isWhitespace {g : Glyph} {gs : List Glyph} (h : g.isWhitespace) :
    read .blank (g :: gs) = (read .blank gs).cons g := by
  rw [read.eq_def]
  simp [h]

/-! ### Steps -/

namespace Scan

variable (pipes : Bool) (last : Position) {g : Glyph} {gs : List Glyph}

theorem read_nil : read pipes last [] = ⟨[], [], [], .ok none, 1⟩ := by
  simp [read, Gap.read]

theorem read_of_ends (h : Gap.Ends g gs) (he : g.isEnd = false) :
    read pipes last (g :: gs) =
      ⟨[], (Lexeme.read pipes g gs).glyphs, (Lexeme.read pipes g gs).rest,
        (Lexeme.read pipes g gs).outcome.map some, (Lexeme.read pipes g gs).looked⟩ := by
  simp [read, Gap.read_of_ends h, he]

theorem read_of_isWhitespace (h : g.isWhitespace) (gs : List Glyph) :
    (read pipes last (g :: gs)).outcome = (read pipes last gs).outcome ∧
      (read pipes last (g :: gs)).rest = (read pipes last gs).rest := by
  simp only [read, Gap.read_of_isWhitespace h, Gap.closed_cons, Gap.rest_cons]
  split
  · split
    · exact ⟨rfl, rfl⟩
    · split <;> exact ⟨rfl, rfl⟩
  · exact ⟨rfl, rfl⟩

end Scan

/-- Some tokens are cut off the front of glyphs. -/
inductive Cuts (pipes : Bool) (last : Position) : List Glyph → List Token → List Glyph → Prop
  | none {gs} : Cuts pipes last gs [] gs
  | step {gs t ts rest} (h : (Scan.read pipes last gs).outcome = .ok (some t))
      (hr : Cuts pipes last (Scan.read pipes last gs).rest ts rest) :
      Cuts pipes last gs (t :: ts) rest

namespace Cuts

variable {pipes : Bool} {last : Position} {gs rest : List Glyph} {ts us : List Token} {g : Glyph}
variable {t : Token}

theorem append {mid : List Glyph} (h : Cuts pipes last gs ts mid)
    (h' : Cuts pipes last mid us rest) : Cuts pipes last gs (ts ++ us) rest := by
  induction h with
  | none => exact h'
  | step h _ ih => exact .step h (ih h')

/-- A single token. -/
theorem lexeme (hg : Gap.Ends g gs) (he : g.isEnd = false)
    (ho : (Lexeme.read pipes g gs).outcome = .ok t) (hr : (Lexeme.read pipes g gs).rest = rest) :
    Cuts pipes last (g :: gs) [t] rest := by
  subst hr
  have hs := Scan.read_of_ends pipes last hg he
  refine .step (by rw [hs, ho]; rfl) ?_
  rw [hs]
  exact .none

/-- Whitespace in front of a token is skipped. -/
theorem blank (hg : g.isWhitespace) (h : Cuts pipes last gs (t :: ts) rest) :
    Cuts pipes last (g :: gs) (t :: ts) rest := by
  obtain ⟨ho, hr⟩ := Scan.read_of_isWhitespace pipes last hg gs
  cases h with
  | step h hrest => exact .step (ho.trans h) (hr ▸ hrest)

end Cuts

namespace Lexer

variable {l : Lexer}

/-- The step that a lexer is about to make. -/
abbrev next (l : Lexer) : Scan := Scan.read l.pipeBrackets l.last l.ahead

/-- The tokens of a lexer are the one that its first step gives, if it gives one, and then those of
the lexer after it. -/
theorem tokens_eq (l : Lexer) :
    l.tokens =
      match l.outcome l.next with
      | .ok (some t) => ⟨t :: (l.advance l.next).tokens.ahead, (l.advance l.next).tokens.ending⟩
      | .ok none => ⟨[], .ok (l.advance l.next).position⟩
      | .error e => ⟨[], .error e⟩ := by
  rw [tokens]
  cases ho : l.outcome l.next with
  | error e =>
    have hf : fetch l = .error e (l.advance l.next) := by simp only [fetch, ho]
    split
    · next h => cases hf.symm.trans h
    · next h => cases hf.symm.trans h
    · next h => cases hf.symm.trans h; rfl
  | ok t? =>
    have hf : fetch l = .ok t? (l.advance l.next) := by simp only [fetch, ho]
    split
    · next h => cases hf.symm.trans h; rfl
    · next h => cases hf.symm.trans h; rfl
    · next h => cases hf.symm.trans h

theorem outcome_of_unbroken (hl : l.failure = none) (s : Scan) : l.outcome s = s.outcome := by
  rw [outcome, hl]

theorem tokens_of_token {t : Token} (hl : l.failure = none) (h : l.next.outcome = .ok (some t)) :
    l.tokens = ⟨t :: (l.advance l.next).tokens.ahead, (l.advance l.next).tokens.ending⟩ := by
  rw [tokens_eq, outcome_of_unbroken hl, h]

theorem tokens_of_end (hl : l.failure = none) (h : l.next.outcome = .ok none) :
    l.tokens = ⟨[], .ok (l.advance l.next).position⟩ := by
  rw [tokens_eq, outcome_of_unbroken hl, h]

theorem tokens_of_error {e : Error} (hl : l.failure = none) (h : l.next.outcome = .error e) :
    l.tokens = ⟨[], .error e⟩ := by
  rw [tokens_eq, outcome_of_unbroken hl, h]

/-- The first step of a lexer that has tokens up to the end: there is none, or there is one and then
the others. -/
theorem step_of_ending {p : Position} (hl : l.failure = none) (h : l.tokens.ending = .ok p) :
    (l.next.outcome = .ok none ∧ l.tokens.ahead = [] ∧ (l.advance l.next).position = p) ∨
      ∃ t, l.next.outcome = .ok (some t) ∧ l.tokens.ahead = t :: (l.advance l.next).tokens.ahead ∧
        (l.advance l.next).tokens.ending = .ok p := by
  cases hnext : l.next.outcome with
  | error e => simp [tokens_of_error hl hnext] at h
  | ok t? =>
    cases t? with
    | none =>
      rw [tokens_of_end hl hnext] at h ⊢
      exact .inl ⟨rfl, rfl, Except.ok.inj h⟩
    | some t =>
      rw [tokens_of_token hl hnext] at h ⊢
      exact .inr ⟨t, rfl, rfl, h⟩

/-- The lexer that is left when some tokens have been cut off. -/
theorem exists_rest {ts : List Token} {rest : List Glyph} (hl : l.failure = none)
    (h : Cuts l.pipeBrackets l.last l.ahead ts rest) :
    ∃ l' : Lexer, l'.failure = none ∧ l'.pipeBrackets = l.pipeBrackets ∧ l'.last = l.last ∧
      l'.ahead = rest ∧ l.tokens = ⟨ts ++ l'.tokens.ahead, l'.tokens.ending⟩ := by
  induction ts generalizing l with
  | nil =>
    cases h
    exact ⟨l, hl, rfl, rfl, rfl, rfl⟩
  | cons t ts ih =>
    cases h with
    | step h hr =>
      obtain ⟨l', hl', hp, hlast, ha, ht⟩ := ih (l := l.advance l.next) hl hr
      refine ⟨l', hl', hp, hlast, ha, ?_⟩
      rw [tokens_of_token hl h, ht]
      rfl

/-- A text that is cut into tokens altogether has those tokens. -/
theorem tokens_of_cuts {ts : List Token} (hl : l.failure = none)
    (h : Cuts l.pipeBrackets l.last l.ahead ts []) : ∃ place, l.tokens = ⟨ts, .ok place⟩ := by
  obtain ⟨l', hl', -, -, ha, ht⟩ := exists_rest hl h
  have hnext : l'.next.outcome = .ok none := by rw [next, ha, Scan.read_nil]
  rw [tokens_of_end hl' hnext, List.append_nil] at ht
  exact ⟨_, ht⟩

end Lexer

/-! ### Characters -/

/-- A character with a number below 256 is the character of one byte. -/
theorem ofUInt8_toUInt8 {c : Char} (h : c.toNat < 256) : Char.ofUInt8 c.toUInt8 = c := by
  apply Char.toNat_inj.1
  have hc : c.val.toNat < 256 := h
  show c.val.toUInt8.toUInt32.toNat = c.val.toNat
  rw [UInt8.toNat_toUInt32, UInt32.toNat_toUInt8]
  omega

theorem isAlpha_iff_toNat {c : Char} :
    c.isAlpha ↔ (65 ≤ c.toNat ∧ c.toNat ≤ 90) ∨ (97 ≤ c.toNat ∧ c.toNat ≤ 122) := by
  show (decide (c.val ≥ 'A'.val ∧ c.val ≤ 'Z'.val) ||
    (decide (c.val ≥ 'a'.val) && decide (c.val ≤ 'z'.val))) = true ↔ _
  simp [UInt32.le_iff_toNat_le]

namespace Glyph

variable {g : Glyph} {c : Char}

theorem is_eq_false (h : g.char ≠ c) : g.is c = false := by
  simp [is, h]

theorem isEnd_of_toNat_pos (h : 0 < g.char.toNat) : g.isEnd = false := by
  rw [isEnd, beq_eq_false_iff_ne]
  intro he
  rw [he] at h
  exact absurd h (by decide)

/-- What a digit is not. -/
theorem of_isDigit (h : g.isDigit) :
    g.isWhitespace = false ∧ g.isEnd = false ∧ g.isExponentMark = false ∧ g.char ≠ '/' ∧
      g.char ≠ '_' := by
  have hn : 48 ≤ g.char.toNat ∧ g.char.toNat ≤ 57 := Char.isDigit_iff_toNat.1 h
  have hne {c : Char} (hc : c.toNat < 48 ∨ 57 < c.toNat) : g.char ≠ c := by
    rintro rfl
    omega
  refine ⟨?_, isEnd_of_toNat_pos (by omega), ?_, hne (by decide), hne (by decide)⟩
  · simp [isWhitespace]
    omega
  · simp [isExponentMark, isAny, is, hne (c := 'e') (by decide), hne (c := 'E') (by decide)]

/-- What a letter is, and what it is not. -/
theorem of_isAlpha (h : g.char.isAlpha) :
    g.isLetter ∧ g.isWhitespace = false ∧ g.isEnd = false ∧ g.isDigit = false ∧ g.char ≠ '/' ∧
      g.char ≠ '-' ∧ g.char ≠ '.' := by
  have hn := isAlpha_iff_toNat.1 h
  have hne {c : Char} (hc : c.toNat < 65) : g.char ≠ c := by
    rintro rfl
    omega
  refine ⟨by simp [isLetter, h], ?_, isEnd_of_toNat_pos (by omega), ?_, hne (by decide),
    hne (by decide), hne (by decide)⟩
  · simp [isWhitespace]
    omega
  · rw [isDigit, ← Bool.not_eq_true, Char.isDigit_iff_toNat]
    have : '9'.toNat = 57 := rfl
    omega

end Glyph

/-- A glyph after which every word has come to its end: a blank, a comma or a bracket. -/
def Glyph.EndsWord (g : Glyph) : Prop := g.char ∈ [' ', ',', '(', ')']

theorem Glyph.EndsWord.facts {g : Glyph} (h : g.EndsWord) :
    Lexeme.isNamePart g = false ∧ g.isDigit = false ∧ g.is '_' = false ∧ g.is '.' = false ∧
      g.isExponentMark = false := by
  rcases g with ⟨c, p⟩
  simp only [EndsWord, List.mem_cons, List.not_mem_nil, or_false] at h
  rcases h with rfl | rfl | rfl | rfl <;> exact ⟨rfl, rfl, rfl, rfl, rfl⟩

/-! ### Names and numbers -/

namespace Lexeme

variable (pipes : Bool) {g : Glyph} {hs rest : List Glyph}

/-- A name is taken up to the next glyph that cannot stand in a name. -/
theorem read_name (hg : g.char.isAlpha) (hh : ∀ h ∈ hs, isNamePart h)
    (hr : ∀ h ∈ rest.head?, h.EndsWord) :
    (read pipes g (hs ++ rest)).rest = rest ∧
      (read pipes g (hs ++ rest)).outcome =
        .ok ⟨.identifier, String.ofList ((g :: hs).map (·.char)), "",
          String.ofList ((g :: hs).map (·.char)), g.position⟩ := by
  obtain ⟨hletter, -, -, hdigit, -, hminus, hpoint⟩ := Glyph.of_isAlpha hg
  have hb : beginsNumber g (hs ++ rest) = false := by
    simp [beginsNumber, hdigit, Glyph.is_eq_false hminus, Glyph.is_eq_false hpoint]
  have htake : rest.takeWhile isNamePart = [] ∧ rest.dropWhile isNamePart = rest := by
    cases rest with
    | nil => exact ⟨rfl, rfl⟩
    | cons h rest => simp [(hr h rfl).facts.1]
  simp only [read, hb, hletter, name, Bool.false_eq_true, if_false, if_true]
  rw [List.takeWhile_append_of_pos hh, List.dropWhile_append_of_pos hh, htake.1, htake.2,
    List.append_nil]
  exact ⟨rfl, rfl⟩

end Lexeme

/-- Digits are taken into a number of any class. -/
theorem NumberTail.read_digits {kind : Token.Kind} {ds rest : List Glyph}
    (hd : ∀ d ∈ ds, d.isDigit) :
    read kind (ds ++ rest) = ⟨ds ++ (read kind rest).glyphs, (read kind rest).rest,
      (read kind rest).kind, (read kind rest).fault⟩ := by
  induction ds with
  | nil => rfl
  | cons d ds ih =>
    have hd' : d.isDigit := hd d (by simp)
    rw [List.cons_append, read.eq_def]
    simp [hd', ih fun d h => hd d (by simp [h]), cons]

theorem NumberTail.read_of_endsWord {kind : Token.Kind} {rest : List Glyph}
    (hr : ∀ h ∈ rest.head?, h.EndsWord) : read kind rest = ⟨[], rest, kind, none⟩ := by
  cases rest with
  | nil => rw [read]
  | cons h rest =>
    obtain ⟨-, hdigit, hunder, hpoint, hexp⟩ := (hr h rfl).facts
    rw [read.eq_def]
    simp [hdigit, hunder, hpoint, hexp]

/-- Digits with at most one point among or after them and at most a minus sign before them. -/
def Decimal.IsPlain (cs : List Char) : Prop :=
  ∃ sign whole fraction, cs = sign ++ (whole ++ fraction) ∧ (sign = [] ∨ sign = ['-']) ∧
    whole ≠ [] ∧ (∀ c ∈ whole, c.isDigit) ∧
      (fraction = [] ∨ ∃ places, fraction = '.' :: places ∧ ∀ c ∈ places, c.isDigit)

/-- What follows the first digits of a plain decimal. -/
def Glyph.IsFraction (gs : List Glyph) : Prop :=
  gs = [] ∨ ∃ point places, gs = point :: places ∧ point.char = '.' ∧ ∀ d ∈ places, d.isDigit

/-- A glyph of a number that is neither an exponent mark nor an underscore. -/
def Glyph.IsPlain (g : Glyph) : Prop := g.isExponentMark = false ∧ g.char ≠ '_'

theorem Glyph.isPlain_of_isDigit {g : Glyph} (h : g.isDigit) : g.IsPlain :=
  have ⟨_, _, hexp, _, hunder⟩ := of_isDigit h
  ⟨hexp, hunder⟩

theorem Glyph.IsFraction.isPlain {gs : List Glyph} (hf : IsFraction gs) {g : Glyph} (h : g ∈ gs) :
    g.IsPlain := by
  obtain rfl | ⟨⟨c, p⟩, places, rfl, hp, hplaces⟩ := hf
  · cases h
  · obtain rfl : c = '.' := hp
    obtain rfl | h := List.mem_cons.1 h
    · exact ⟨rfl, by simp⟩
    · exact isPlain_of_isDigit (hplaces g h)

theorem NumberTail.read_plain {ds fraction rest : List Glyph} (hd : ∀ d ∈ ds, d.isDigit)
    (hf : Glyph.IsFraction fraction) (hr : ∀ h ∈ rest.head?, h.EndsWord) :
    ∃ kind, (kind = .integer ∨ kind = .decimal) ∧
      read .integer (ds ++ (fraction ++ rest)) = ⟨ds ++ fraction, rest, kind, none⟩ := by
  rw [read_digits hd]
  obtain rfl | ⟨⟨c, p⟩, places, rfl, hp, hplaces⟩ := hf
  · refine ⟨.integer, .inl rfl, ?_⟩
    rw [List.nil_append, read_of_endsWord hr]
  · obtain rfl : c = '.' := hp
    refine ⟨.decimal, .inr rfl, ?_⟩
    have hpoint : Glyph.isDigit ⟨'.', p⟩ = false ∧ Glyph.is ⟨'.', p⟩ '_' = false ∧
        Glyph.is ⟨'.', p⟩ '.' := ⟨rfl, rfl, rfl⟩
    rw [List.cons_append, read.eq_def]
    simp [hpoint, read_digits hplaces, read_of_endsWord hr, cons]

namespace Lexeme

variable (pipes : Bool) {g : Glyph} {gs rest : List Glyph}

/-- The characters of a number without exponent and underscores are recorded as they are. -/
theorem number_of_plain {taken : List Glyph} {kind : Token.Kind}
    (ht : NumberTail.read .integer gs = ⟨taken, rest, kind, none⟩) (hg : g.is '.' = false)
    (hall : ∀ h ∈ g :: taken, h.IsPlain) :
    (number g gs).rest = rest ∧ (number g gs).outcome =
      .ok ⟨kind, String.ofList ((g :: taken).map (·.char)), "",
        String.ofList ((g :: taken).map (·.char)), g.position⟩ := by
  have hsource : numberSource (g :: taken) = (g :: taken).map (·.char) :=
    List.map_congr_left fun h hh => by simp [(hall h hh).1]
  have hfilter : ((g :: taken).map (·.char)).filter (· != '_') = (g :: taken).map (·.char) := by
    refine List.filter_eq_self.2 fun c hc => ?_
    obtain ⟨h, hh, rfl⟩ := List.mem_map.1 hc
    simpa using (hall h hh).2
  simp only [number, hg, Bool.false_eq_true, if_false, ht, hsource, hfilter]
  exact ⟨trivial, trivial⟩

theorem read_unsigned {ds fraction : List Glyph} (hg : g.isDigit) (hd : ∀ d ∈ ds, d.isDigit)
    (hf : Glyph.IsFraction fraction) (hr : ∀ h ∈ rest.head?, h.EndsWord) :
    (read pipes g (ds ++ (fraction ++ rest))).rest = rest ∧
      ∃ kind, (kind = .integer ∨ kind = .decimal) ∧
        (read pipes g (ds ++ (fraction ++ rest))).outcome =
          .ok ⟨kind, String.ofList ((g :: (ds ++ fraction)).map (·.char)), "",
            String.ofList ((g :: (ds ++ fraction)).map (·.char)), g.position⟩ := by
  obtain ⟨kind, hkind, ht⟩ := NumberTail.read_plain hd hf hr
  have hb : beginsNumber g (ds ++ (fraction ++ rest)) := by simp [beginsNumber, hg]
  have hpoint : g.is '.' = false := Glyph.is_eq_false fun he => by
    rw [Glyph.isDigit, he] at hg
    cases hg
  have hall : ∀ h ∈ g :: (ds ++ fraction), h.IsPlain := by
    intro h hh
    rcases List.mem_cons.1 hh with rfl | hh
    · exact Glyph.isPlain_of_isDigit hg
    · rcases List.mem_append.1 hh with hh | hh
      · exact Glyph.isPlain_of_isDigit (hd h hh)
      · exact hf.isPlain hh
  obtain ⟨hrest, hout⟩ := number_of_plain ht hpoint hall
  simp only [read, hb, if_true]
  exact ⟨hrest, kind, hkind, hout⟩

theorem read_signed {p : Position} {d : Glyph} {ds fraction : List Glyph} (hd : d.isDigit)
    (hds : ∀ d ∈ ds, d.isDigit) (hf : Glyph.IsFraction fraction)
    (hr : ∀ h ∈ rest.head?, h.EndsWord) :
    (read pipes ⟨'-', p⟩ (d :: (ds ++ (fraction ++ rest)))).rest = rest ∧
      ∃ kind, (kind = .integer ∨ kind = .decimal) ∧
        (read pipes ⟨'-', p⟩ (d :: (ds ++ (fraction ++ rest)))).outcome =
          .ok ⟨kind, String.ofList ('-' :: (d :: (ds ++ fraction)).map (·.char)), "",
            String.ofList ('-' :: (d :: (ds ++ fraction)).map (·.char)), p⟩ := by
  have hds' : ∀ h ∈ d :: ds, h.isDigit := by
    intro h hh
    rcases List.mem_cons.1 hh with rfl | hh
    · exact hd
    · exact hds h hh
  obtain ⟨kind, hkind, ht⟩ := NumberTail.read_plain hds' hf hr
  have hb : beginsNumber ⟨'-', p⟩ (d :: (ds ++ (fraction ++ rest))) := by
    simp [beginsNumber, nextIs, hd, Glyph.is, Glyph.isEnd, Glyph.endMark]
  have hall : ∀ h ∈ ⟨'-', p⟩ :: (d :: ds ++ fraction), h.IsPlain := by
    intro h hh
    rcases List.mem_cons.1 hh with rfl | hh
    · exact ⟨rfl, by simp⟩
    · rcases List.mem_append.1 hh with hh | hh
      · exact Glyph.isPlain_of_isDigit (hds' h hh)
      · exact hf.isPlain hh
  obtain ⟨hrest, hout⟩ := number_of_plain ht rfl hall
  simp only [read, hb, if_true]
  exact ⟨hrest, kind, hkind, hout⟩

/-- A plain decimal is taken whole. -/
theorem read_plain (h : Decimal.IsPlain ((g :: gs).map (·.char)))
    (hr : ∀ h ∈ rest.head?, h.EndsWord) :
    Gap.Ends g (gs ++ rest) ∧ g.isEnd = false ∧ (read pipes g (gs ++ rest)).rest = rest ∧
      ∃ kind, (kind = .integer ∨ kind = .decimal) ∧ (read pipes g (gs ++ rest)).outcome =
        .ok ⟨kind, String.ofList ((g :: gs).map (·.char)), "",
          String.ofList ((g :: gs).map (·.char)), g.position⟩ := by
  obtain ⟨sign, whole, fraction, he, hsign, hne, hwhole, hfraction⟩ := h
  -- The glyphs fall into the same three pieces as their characters.
  obtain ⟨gsign, gs', hgs, hgsign, he'⟩ := List.map_eq_append_iff.1 he
  obtain ⟨gwhole, gfraction, rfl, hgwhole, hgfraction⟩ := List.map_eq_append_iff.1 he'
  have hd : ∀ d ∈ gwhole, d.isDigit := fun d h => hwhole _ (hgwhole ▸ List.mem_map_of_mem h)
  have hf : Glyph.IsFraction gfraction := by
    obtain rfl | ⟨places, rfl, hp⟩ := hfraction
    · exact .inl (List.map_eq_nil_iff.1 hgfraction)
    · obtain ⟨point, gplaces, rfl, hpoint, rfl⟩ := List.map_eq_cons_iff.1 hgfraction
      exact .inr ⟨point, gplaces, rfl, hpoint, fun d h => hp _ (List.mem_map_of_mem h)⟩
  obtain ⟨d, ds, rfl⟩ : ∃ d ds, gwhole = d :: ds := by
    cases gwhole with
    | nil => exact absurd hgwhole.symm hne
    | cons d ds => exact ⟨d, ds, rfl⟩
  have hd0 : d.isDigit := hd d (by simp)
  have hds : ∀ h ∈ ds, h.isDigit := fun h hh => hd h (by simp [hh])
  rcases hsign with rfl | rfl
  · obtain rfl := List.map_eq_nil_iff.1 hgsign
    obtain ⟨rfl, rfl⟩ : g = d ∧ gs = ds ++ gfraction := by simpa using hgs
    obtain ⟨hblank, hend, -, hslash, -⟩ := Glyph.of_isDigit hd0
    refine ⟨⟨hblank, fun h => ?_⟩, hend, ?_⟩
    · simp [Glyph.is_eq_false hslash] at h
    · rw [List.append_assoc]
      exact read_unsigned pipes hd0 hds hf hr
  · obtain ⟨⟨c, p⟩, _, rfl, hc, hnil⟩ := List.map_eq_cons_iff.1 hgsign
    obtain rfl := List.map_eq_nil_iff.1 hnil
    obtain rfl : c = '-' := hc
    obtain ⟨rfl, rfl⟩ : g = ⟨'-', p⟩ ∧ gs = d :: (ds ++ gfraction) := by simpa using hgs
    refine ⟨⟨rfl, fun h => by cases h⟩, rfl, ?_⟩
    rw [List.cons_append, List.append_assoc]
    exact read_signed pipes hd0 hds hf hr

end Lexeme

/-! ### Tokens of written trees -/

namespace Cuts

variable (pipes : Bool) (last : Position) {g : Glyph} {gs hs rest : List Glyph}

theorem name (hg : g.char.isAlpha) (hh : ∀ h ∈ hs, Lexeme.isNamePart h)
    (hr : ∀ h ∈ rest.head?, h.EndsWord) :
    ∃ t : Token, t.isIdentifier ∧ t.contents = String.ofList ((g :: hs).map (·.char)) ∧
      Cuts pipes last (g :: (hs ++ rest)) [t] rest := by
  obtain ⟨-, hblank, hend, -, hslash, -⟩ := Glyph.of_isAlpha hg
  obtain ⟨hrest, hout⟩ := Lexeme.read_name pipes hg hh hr
  refine ⟨_, ?_, ?_, .lexeme ⟨hblank, fun h => ?_⟩ hend hout hrest⟩
  · rfl
  · rfl
  · simp [Glyph.is_eq_false hslash] at h

theorem number (h : Decimal.IsPlain (gs.map (·.char))) (hr : ∀ h ∈ rest.head?, h.EndsWord) :
    ∃ t : Token, t.isNumber ∧ t.contents = String.ofList (gs.map (·.char)) ∧
      Cuts pipes last (gs ++ rest) [t] rest := by
  cases gs with
  | nil =>
    obtain ⟨sign, whole, fraction, he, -, hne, -⟩ := h
    simp [hne] at he
  | cons g gs =>
    obtain ⟨hends, hend, hrest, kind, hkind, hout⟩ := Lexeme.read_plain pipes h hr
    refine ⟨_, ?_, ?_, .lexeme hends hend hout hrest⟩
    · rcases hkind with rfl | rfl <;> rfl
    · rfl

theorem opening (p : Position) : ∃ t : Token, t.isSymbol "(" ∧
    Cuts pipes last (⟨'(', p⟩ :: gs) [t] gs := by
  have hread : Lexeme.read pipes ⟨'(', p⟩ gs = Lexeme.bracket ⟨'(', p⟩ gs := by
    cases pipes <;> rfl
  refine ⟨_, ?_, .lexeme ⟨rfl, fun h => ?_⟩ rfl (by rw [hread]; rfl) (by rw [hread]; rfl)⟩
  · rfl
  · cases h

theorem closing (p : Position) (gs : List Glyph) : ∃ t : Token, t.isSymbol ")" ∧
    Cuts pipes last (⟨')', p⟩ :: gs) [t] gs := by
  have hread : Lexeme.read pipes ⟨')', p⟩ gs = Lexeme.bracket ⟨')', p⟩ gs := by
    cases pipes <;> rfl
  refine ⟨_, ?_, .lexeme ⟨rfl, fun h => ?_⟩ rfl (by rw [hread]; rfl) (by rw [hread]; rfl)⟩
  · rfl
  · cases h

theorem comma (p q : Position) : ∃ t : Token, t.isSymbol "," ∧
    Cuts pipes last (⟨',', p⟩ :: ⟨' ', q⟩ :: gs) [t] (⟨' ', q⟩ :: gs) := by
  have hread : Lexeme.read pipes ⟨',', p⟩ (⟨' ', q⟩ :: gs) =
      Lexeme.symbol ⟨',', p⟩ (⟨' ', q⟩ :: gs) := by
    cases pipes <;> rfl
  refine ⟨_, ?_, .lexeme ⟨rfl, fun h => ?_⟩ rfl (by rw [hread]; rfl) (by rw [hread]; rfl)⟩
  · rfl
  · cases h

/-- An operator before a blank is taken whole. -/
theorem operator {op : Operator} (q : Position) (h : hs.map (·.char) = op.symbol.toList) :
    ∃ t : Token, t.isAnySymbol ∧ t.trigger = op.symbol ∧
      Cuts pipes last (hs ++ ⟨' ', q⟩ :: gs) [t] (⟨' ', q⟩ :: gs) := by
  rcases hs with _ | ⟨⟨c, p⟩, _ | ⟨⟨c', p'⟩, _ | ⟨g, hs⟩⟩⟩
  · cases op <;> simp [Operator.symbol] at h
  · cases op <;> simp [Operator.symbol] at h <;> subst h <;>
      exact ⟨_, rfl, rfl, .lexeme ⟨rfl, fun _ => rfl⟩ rfl (by cases pipes <;> rfl)
        (by cases pipes <;> rfl)⟩
  · cases op <;> simp [Operator.symbol] at h <;> obtain ⟨rfl, rfl⟩ := h <;>
      exact ⟨_, rfl, rfl, .lexeme ⟨rfl, fun _ => rfl⟩ rfl (by cases pipes <;> rfl)
        (by cases pipes <;> rfl)⟩
  · cases op <;> simp [Operator.symbol] at h

end Cuts

end Reckon
