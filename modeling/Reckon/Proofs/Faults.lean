import Reckon.Proofs.Interruption
import Reckon.Proofs.Numerals

/-!
# Faults in texts

What keeps a token from being read, said without the lexer. There are only four faults: a block
comment that is not closed, and behind a gap a control character, a number before a point that it
cannot take in any more, or a number before an exponent that it cannot take in any more. Each of
them gives its own error, with the place where the text goes wrong; where there is no fault, the
lexer gives a token or the end.

## Main definitions

* `Unclosed` — a text ends in a block comment.
* `Stuck` — no token can be read at the beginning of a text.
* `Fault` — what keeps a token from being read.
* `Lexer.Behind` — a lexer goes on behind some text.

## Main statements

* `Gap.read_of_isGap`, `Gap.unclosed_of_read` — gaps are skipped, but for unclosed comments.
* `Scan.fault_of_outcome`, `Scan.outcome_of_fault` — a step fails where there is a fault.
* `Lexer.fetch_error_iff_fault` — how a lexer fails, however often it has been asked before.
-/

namespace Reckon

/-! ### Gaps that are read -/

theorem Glyph.eq_of_char {g : Glyph} {c : Char} (h : g.char = c) : g = ⟨c, g.position⟩ := by
  subst h
  rfl

theorem Glyph.isWhitespace_of_mem_blanks {g : Glyph} (h : g.char ∈ blanks) : g.isWhitespace := by
  rcases g with ⟨c, p⟩
  simp only [blanks, List.mem_cons, List.not_mem_nil, or_false] at h
  rcases h with rfl | rfl | rfl | rfl | rfl | rfl | rfl | rfl <;> rfl

namespace Gap

variable {g : Glyph} {gs hs : List Glyph}

/-- A gap that goes on with some glyphs and then as another one does. -/
def prepend (gs : List Glyph) (gap : Gap) : Gap := { gap with glyphs := gs ++ gap.glyphs }

theorem prepend_cons (g : Glyph) (gs : List Glyph) (gap : Gap) :
    prepend (g :: gs) gap = (prepend gs gap).cons g := rfl

theorem read_line_open {s t : Glyph} (hs : s.char = '/') (ht : t.char = '/') (gs : List Glyph) :
    read .blank (s :: t :: gs) = (read .lineComment gs).prepend [s, t] := by
  rw [Glyph.eq_of_char hs, Glyph.eq_of_char ht, read]
  rfl

theorem read_block_open {s t : Glyph} (hs : s.char = '/') (ht : t.char = '*') (gs : List Glyph) :
    read .blank (s :: t :: gs) = (read .blockComment gs).prepend [s, t] := by
  rw [Glyph.eq_of_char hs, Glyph.eq_of_char ht, read]
  rfl

theorem read_block_close {s t : Glyph} (hs : s.char = '*') (ht : t.char = '/') (gs : List Glyph) :
    read .blockComment (s :: t :: gs) = (read .blank gs).prepend [s, t] := by
  rw [Glyph.eq_of_char hs, Glyph.eq_of_char ht, read]
  rfl

/-- A line comment is skipped up to the end of its line. -/
theorem read_line (hun : Unended gs) (hline : '\n' ∉ gs.map (·.char)) (hs : List Glyph) :
    read .lineComment (gs ++ hs) = (read .lineComment hs).prepend gs := by
  induction gs with
  | nil => rfl
  | cons g gs ih =>
    obtain ⟨hend, hun⟩ := unended_cons.1 hun
    rw [List.map_cons, List.mem_cons, not_or] at hline
    have hfeed : g.isNewline = false := by simpa [Glyph.isNewline] using Ne.symm hline.1
    rw [List.cons_append, read.eq_def]
    simp only [hend, hfeed, ih hun hline.2, Bool.false_eq_true, if_false]
    rfl

/-- Behind a line comment there is a line feed or nothing. -/
theorem read_lineComment_eq (h : ∀ c ∈ (gs.map (·.char)).head?, c = '\n') :
    read .lineComment gs = read .blank gs := by
  cases gs with
  | nil => rfl
  | cons g gs =>
    rw [Glyph.eq_of_char (h g.char rfl), read_of_isWhitespace rfl, read]
    rfl

/-- The first glyph of a comment that is not closed there. -/
theorem read_block_cons (hend : g.isEnd = false)
    (hopen : ¬ ['*', '/'] <+: (g :: gs).map (·.char)) :
    read .blockComment (g :: gs) = (read .blockComment gs).cons g := by
  cases gs with
  | nil =>
    rw [read.eq_def]
    simp [hend]
  | cons h gs =>
    have hclose : (g.is '*' && h.is '/') = false := by
      rw [← Bool.not_eq_true, Bool.and_eq_true]
      rintro ⟨hg, hh⟩
      refine hopen ⟨gs.map (·.char), ?_⟩
      rw [List.map_cons, List.map_cons, Glyph.char_of_is hg, Glyph.char_of_is hh]
      rfl
    rw [read.eq_def]
    simp [hend, hclose]

/-- A block comment is skipped up to its end. -/
theorem read_block {s t : Glyph} (hun : Unended gs) (hbody : ¬ ['*', '/'] <:+: gs.map (·.char))
    (hs : s.char = '*') (ht : t.char = '/') (rest : List Glyph) :
    read .blockComment (gs ++ s :: t :: rest) = (read .blank rest).prepend (gs ++ [s, t]) := by
  induction gs with
  | nil => exact read_block_close hs ht rest
  | cons g gs ih =>
    obtain ⟨hend, hun⟩ := unended_cons.1 hun
    rw [List.map_cons, List.infix_cons_iff, not_or] at hbody
    have hopen : ¬ ['*', '/'] <+: (g :: (gs ++ s :: t :: rest)).map (·.char) := by
      -- The first star behind the body does not close it.
      rintro ⟨more, hmore⟩
      cases gs with
      | nil => simp [hs] at hmore
      | cons h gs =>
        refine hbody.1 ⟨gs.map (·.char), ?_⟩
        simp only [List.map_cons, List.map_append, List.cons_append, List.nil_append,
          List.cons.injEq] at hmore ⊢
        exact ⟨hmore.1, hmore.2.1, trivial⟩
    rw [List.cons_append, read_block_cons hend hopen, ih hun hbody.2]
    rfl

/-- A block comment that is not closed is skipped up to the end of the text. -/
theorem read_block_unclosed (hun : Unended gs) (hbody : ¬ ['*', '/'] <:+: gs.map (·.char)) :
    read .blockComment gs = ⟨gs, [], false⟩ := by
  induction gs with
  | nil => rfl
  | cons g gs ih =>
    obtain ⟨hend, hun⟩ := unended_cons.1 hun
    rw [List.map_cons, List.infix_cons_iff, not_or] at hbody
    rw [read_block_cons hend hbody.1, ih hun hbody.2]
    rfl

/-- Gaps are skipped. -/
theorem read_of_isGap (hun : Unended gs) (h : IsGap (gs.map (·.char)) (hs.map (·.char))) :
    read .blank (gs ++ hs) = (read .blank hs).prepend gs := by
  generalize hgap : gs.map (·.char) = gap at h
  generalize hafter : hs.map (·.char) = after at h
  induction h generalizing gs with
  | nil =>
    rw [List.map_eq_nil_iff] at hgap
    subst hgap
    rfl
  | blank hc _ ih =>
    obtain ⟨g, gs, rfl, rfl, hgs⟩ := List.map_eq_cons_iff.1 hgap
    obtain ⟨-, hun⟩ := unended_cons.1 hun
    have hw := Glyph.isWhitespace_of_mem_blanks hc
    rw [List.cons_append, read_of_isWhitespace hw, ih hun hgs hafter, prepend_cons]
  | lineComment hbody hstop _ ih =>
    obtain ⟨s, gs, rfl, hs, hgs⟩ := List.map_eq_cons_iff.1 hgap
    obtain ⟨t, gs, rfl, ht, hgs⟩ := List.map_eq_cons_iff.1 hgs
    obtain ⟨bs, gs, rfl, rfl, rfl⟩ := List.map_eq_append_iff.1 hgs
    obtain ⟨hunbody, hun⟩ := unended_append.1 (unended_cons.1 (unended_cons.1 hun).2).2
    subst hafter
    rw [← List.map_append] at hstop
    rw [List.cons_append, List.cons_append, read_line_open hs ht, List.append_assoc,
      read_line hunbody hbody, read_lineComment_eq hstop, ih hun rfl rfl]
    simp [prepend]
  | blockComment hbody _ ih =>
    obtain ⟨s, gs, rfl, hs, hgs⟩ := List.map_eq_cons_iff.1 hgap
    obtain ⟨t, gs, rfl, ht, hgs⟩ := List.map_eq_cons_iff.1 hgs
    obtain ⟨bs, gs', rfl, rfl, hbehind⟩ := List.map_eq_append_iff.1 hgs
    obtain ⟨s', gs', rfl, hs', hbehind⟩ := List.map_eq_cons_iff.1 hbehind
    obtain ⟨t', gs', rfl, ht', hgs'⟩ := List.map_eq_cons_iff.1 hbehind
    obtain ⟨hunbody, hun⟩ := unended_append.1 (unended_cons.1 (unended_cons.1 hun).2).2
    have hun := (unended_cons.1 (unended_cons.1 hun).2).2
    rw [List.cons_append, List.cons_append, read_block_open hs ht, List.append_assoc,
      List.cons_append, List.cons_append, read_block hunbody hbody hs' ht', ih hun hgs' hafter]
    simp [prepend]

end Gap

/-! ### Gaps that are not closed -/

/-- A text ends in a block comment that is not closed, behind a gap. -/
def Unclosed (text : List Char) : Prop :=
  ∃ gap body, text = gap ++ '/' :: '*' :: body ∧ IsGap gap ('/' :: '*' :: body) ∧
    ¬ ['*', '/'] <:+: body

/-- What is left of such a text from inside a part of the gap. -/
def Unclosed.From : Gap.Part → List Char → Prop
  | .blank, text => Unclosed text
  | .lineComment, text => ∃ line rest, text = line ++ rest ∧ '\n' ∉ line ∧
      rest.head? = some '\n' ∧ Unclosed rest
  | .blockComment, text => ¬ ['*', '/'] <:+: text ∨
      ∃ body rest, text = body ++ '*' :: '/' :: rest ∧ ¬ ['*', '/'] <:+: body ∧ Unclosed rest

namespace Unclosed

variable {c : Char} {text : List Char}

theorem blank (hc : c ∈ blanks) (h : Unclosed text) : Unclosed (c :: text) := by
  obtain ⟨gap, body, rfl, hgap, hbody⟩ := h
  exact ⟨c :: gap, body, rfl, .blank hc hgap, hbody⟩

theorem lineComment (h : From .lineComment text) : Unclosed ('/' :: '/' :: text) := by
  obtain ⟨line, _, rfl, hline, hstop, gap, body, rfl, hgap, hbody⟩ := h
  refine ⟨'/' :: '/' :: (line ++ gap), body, by simp, .lineComment hline ?_ hgap, hbody⟩
  intro c hc
  exact Option.some.inj (hc.symm.trans hstop)

theorem blockComment (h : From .blockComment text) : Unclosed ('/' :: '*' :: text) := by
  rcases h with h | ⟨closed, _, rfl, hclosed, gap, body, rfl, hgap, hbody⟩
  · exact ⟨[], text, rfl, .nil, h⟩
  · exact ⟨'/' :: '*' :: (closed ++ '*' :: '/' :: gap), body, by simp,
      .blockComment hclosed hgap, hbody⟩

end Unclosed

/-- A comment is not closed by a glyph in front if this and the next one are not its end. -/
theorem Gap.not_closed_cons {g h : Glyph} {gs : List Glyph} {body : List Char}
    (hclose : ¬ (g.is '*' && h.is '/')) (hbody : ¬ ['*', '/'] <:+: body)
    (hfront : body <+: (h :: gs).map (·.char)) : ¬ ['*', '/'] <:+: g.char :: body := by
  intro hin
  obtain hstart | hin := List.infix_cons_iff.1 hin
  · have hstart := hstart.trans (List.cons_prefix_cons.2 ⟨rfl, hfront⟩)
    rw [List.map_cons, List.cons_prefix_cons, List.cons_prefix_cons] at hstart
    obtain ⟨hstar, hslash, -⟩ := hstart
    exact hclose (Bool.and_eq_true_iff.2 ⟨Glyph.is_of_char hstar.symm (by decide),
      Glyph.is_of_char hslash.symm (by decide)⟩)
  · exact hbody hin

/-- What is skipped in vain from inside a part of a gap ends in a block comment. -/
theorem Gap.unclosed_of_read (part : Part) (gs : List Glyph) (hun : Unended gs)
    (hopen : (read part gs).closed = false) : Unclosed.From part (gs.map (·.char)) := by
  fun_induction read part gs
  case case1 part =>
    cases part with
    | blank => cases hopen
    | lineComment => cases hopen
    | blockComment => exact .inl (by simp)
  case case2 g gs hw ih =>
    exact Unclosed.blank (Glyph.mem_blanks hw) (ih (unended_cons.1 hun).2 hopen)
  case case4 g hw h hs hline ih =>
    obtain ⟨hg, hh⟩ := Bool.and_eq_true_iff.1 hline
    rw [List.map_cons, List.map_cons, Glyph.char_of_is hg, Glyph.char_of_is hh]
    exact Unclosed.lineComment (ih (unended_cons.1 (unended_cons.1 hun).2).2 hopen)
  case case5 g hw h hs _ hblock ih =>
    obtain ⟨hg, hh⟩ := Bool.and_eq_true_iff.1 hblock
    rw [List.map_cons, List.map_cons, Glyph.char_of_is hg, Glyph.char_of_is hh]
    exact Unclosed.blockComment (ih (unended_cons.1 (unended_cons.1 hun).2).2 hopen)
  case case8 g gs he hn ih =>
    have hfeed : g.char = '\n' := beq_iff_eq.1 hn
    have hrest : Unclosed (gs.map (·.char)) := ih (unended_cons.1 hun).2 hopen
    refine ⟨[], _, rfl, by simp, by simp [hfeed], .blank ?_ hrest⟩
    simp [hfeed, blanks]
  case case9 g gs he hn ih =>
    have hfeed : g.char ≠ '\n' := fun h => hn (beq_iff_eq.2 h)
    obtain ⟨line, rest, hline, hno, hstop, hrest⟩ := ih (unended_cons.1 hun).2 hopen
    exact ⟨g.char :: line, rest, by simp [hline], by simp [hno, hfeed.symm], hstop, hrest⟩
  case case10 g gs he =>
    rw [(unended_cons.1 hun).1] at he
    cases he
  case case11 g he ih => exact .inl fun hin => absurd hin.length_le (by simp)
  case case12 g he h hs hclose ih =>
    obtain ⟨hg, hh⟩ := Bool.and_eq_true_iff.1 hclose
    have hrest : Unclosed (hs.map (·.char)) :=
      ih (unended_cons.1 (unended_cons.1 hun).2).2 hopen
    refine .inr ⟨[], _, ?_, by simp, hrest⟩
    rw [List.map_cons, List.map_cons, Glyph.char_of_is hg, Glyph.char_of_is hh]
    rfl
  case case13 g he h hs hclose ih =>
    rcases ih (unended_cons.1 hun).2 hopen with hbody | ⟨body, rest, htext, hbody, hrest⟩
    · exact .inl (not_closed_cons hclose hbody (List.prefix_refl _))
    · refine .inr ⟨g.char :: body, rest, by rw [List.map_cons, htext]; rfl, ?_, hrest⟩
      exact not_closed_cons hclose hbody (by rw [htext]; exact List.prefix_append _ _)
  all_goals cases hopen

/-! ### Numbers that cannot go on -/

namespace NumberTail

variable {g h : Glyph} {gs : List Glyph} {kind : Token.Kind}

theorem read_point_of_ne (hg : g.is '.') (hkind : kind ≠ .integer) :
    read kind (g :: gs) = ⟨[], g :: gs, kind, some .point⟩ := by
  obtain ⟨hdigit, hunder⟩ := Glyph.of_point hg
  rw [read.eq_def]
  simp [hdigit, hunder, hg, hkind]

theorem read_exponent_of_scientific (hg : g.isExponentMark) (hh : h.isDigit || h.isSign) :
    read .scientific (g :: h :: gs) = ⟨[], g :: h :: gs, .scientific, some .exponent⟩ := by
  obtain ⟨hdigit, hunder, hpoint⟩ := of_isExponentMark hg
  rw [read.eq_def]
  simp [nextIs_cons, hdigit, hunder, hpoint, hg, hh]

/-- What a number that cannot go on has come to. -/
def Meets (t : NumberTail) : Option NumberFault → Prop
  | none => True
  | some .point => t.kind ≠ .integer ∧ ∃ p gs, t.rest = p :: gs ∧ p.is '.'
  | some .exponent => t.kind = .scientific ∧
      ∃ m h gs, t.rest = m :: h :: gs ∧ m.isExponentMark ∧ (h.isDigit || h.isSign)

theorem meets_fault (kind : Token.Kind) (gs : List Glyph) :
    (read kind gs).Meets (read kind gs).fault := by
  fun_induction read kind gs
  case case4 kind g gs hg hpoint hk => exact ⟨hk, g, gs, rfl, hpoint⟩
  case case5 g gs hg hpoint hmark =>
    obtain ⟨hm, hnext⟩ := Bool.and_eq_true_iff.1 hmark
    cases gs with
    | nil => cases hnext
    | cons h gs => exact ⟨rfl, g, h, gs, rfl, hm, hnext⟩
  all_goals trivial

end NumberTail

/-- The control characters among the first 256 characters. -/
def IsControl (c : Char) : Prop := c.toNat < 0x20 ∨ 0x7F ≤ c.toNat ∧ c.toNat ≤ 0x9F

instance : DecidablePred IsControl := fun c =>
  inferInstanceAs (Decidable (c.toNat < 0x20 ∨ 0x7F ≤ c.toNat ∧ c.toNat ≤ 0x9F))

/-- A text, behind some other text, begins with something that is no token. -/
inductive Stuck (before : List Char) : List Char → Error → Prop
  | character {c after} (hc : IsControl c) (hblank : c ∉ blanks) :
    Stuck before (c :: after) (.invalidCharacter c (Position.reach before).next)
  | point {kind w after} (hw : NumberText kind w) (hkind : kind ≠ .integer) :
    Stuck before (w ++ '.' :: after)
      (.repeatedPoint (String.ofList (w.map capitalMark)) (Position.reach (before ++ w)).next)
  | exponent {w m c after} (hw : NumberText .scientific w) (hm : m = 'e' ∨ m = 'E')
    (hc : c.isDigit ∨ c = '+' ∨ c = '-') :
    Stuck before (w ++ m :: c :: after)
      (.repeatedExponent (String.ofList (w.map capitalMark)) (Position.reach (before ++ w)).next)

namespace Lexeme

variable {pipes : Bool} {g : Glyph} {gs : List Glyph} {e : Error}

theorem read_of_beginsNumber (h : beginsNumber g gs) : read pipes g gs = number g gs := by
  rw [read, if_pos h]

/-- A control character is nothing else. -/
theorem read_of_isControl (hg : IsControl g.char) :
    (read pipes g gs).outcome = .error (.invalidCharacter g.char g.position) := by
  have his {c : Char} (hc : 0x20 ≤ c.toNat ∧ c.toNat < 0x7F) : g.is c = false := by
    refine Glyph.is_eq_false ?_
    rintro rfl
    unfold IsControl at hg
    omega
  have hdigit : g.isDigit = false := by
    rw [← Bool.not_eq_true, Glyph.isDigit, Char.isDigit_iff_toNat]
    have : '0'.toNat = 48 ∧ '9'.toNat = 57 := ⟨rfl, rfl⟩
    unfold IsControl at hg
    omega
  have hletter : g.isLetter = false := by
    have halpha : ¬ g.char.isAlpha := by
      rw [isAlpha_iff_toNat]
      unfold IsControl at hg
      omega
    simp only [Glyph.isLetter, halpha, Bool.false_or]
    unfold IsControl at hg
    simp
    omega
  have hcontrol : g.isControl := by
    simpa [Glyph.isControl, IsControl] using hg
  have hnumber : beginsNumber g gs = false := by
    simp [beginsNumber, hdigit, his (c := '-') (by decide), his (c := '.') (by decide)]
  have hbracket : isBracket pipes g gs = false := by
    simp [isBracket, Glyph.isAny, his (c := '(') (by decide), his (c := ')') (by decide),
      his (c := '[') (by decide), his (c := ']') (by decide), his (c := '\x7b') (by decide),
      his (c := '\x7d') (by decide), his (c := '|') (by decide)]
  simp only [read, hnumber, hletter, hbracket, hcontrol, Bool.false_eq_true, if_false, if_true]

/-- An error comes from a number or from a control character. -/
theorem error_cases (h : (read pipes g gs).outcome = .error e) :
    (beginsNumber g gs ∧ (number g gs).outcome = .error e) ∨
      (IsControl g.char ∧ e = .invalidCharacter g.char g.position) := by
  unfold read at h
  split_ifs at h with hnumber hletter hbracket hcontrol
  · exact .inl ⟨hnumber, h⟩
  · cases h
  · cases h
  · cases h
    exact .inr ⟨by simpa [Glyph.isControl, IsControl] using hcontrol, rfl⟩
  · unfold symbol at h
    split at h
    · split_ifs at h
    · cases h

/-- A number begins with a glyph before which there is no gap. -/
theorem ends_of_beginsNumber (h : beginsNumber g gs) : Gap.Ends g gs := by
  rcases beginsNumber_iff.1 h with hbare | ⟨hminus, -⟩
  · exact hbare.ends.1
  · rw [Glyph.eq_of_char (Glyph.char_of_is hminus)]
    exact ⟨rfl, fun hslash => by cases hslash⟩

end Lexeme

namespace Stuck

variable {g : Glyph} {gs : List Glyph} {before : List Char} {e : Error}

/-- A number that cannot go on. -/
theorem of_number (hnumber : Lexeme.beginsNumber g gs) (hplaced : Placed before (g :: gs))
    (h : (Lexeme.number g gs).outcome = .error e) : Stuck before ((g :: gs).map (·.char)) e := by
  have hword := Lexeme.numberText_read hnumber
  simp only [Lexeme.number] at h
  generalize (if g.is '.' then Token.Kind.decimal else .integer) = kind at h hword
  have hmeets := NumberTail.meets_fault kind gs
  have hall := NumberTail.glyphs_append_rest kind gs
  generalize NumberTail.read kind gs = tail at h hword hmeets hall
  obtain ⟨glyphs, rest, kind', fault⟩ := tail
  dsimp only at h hword hmeets hall
  subst hall
  rw [← List.cons_append, placed_append] at hplaced
  rw [← List.cons_append, List.map_append]
  rw [Lexeme.numberSource_eq_map] at h
  obtain ⟨-, hplaced⟩ := hplaced
  generalize (g :: glyphs).map (·.char) = w at h hword hplaced ⊢
  cases fault with
  | none => cases h
  | some fault =>
    cases fault with
    | point =>
      obtain ⟨hkind, p, after, rfl, hp⟩ := hmeets
      obtain rfl := Except.error.inj h
      show Stuck before (w ++ p.char :: _) (.repeatedPoint _ p.position)
      rw [Glyph.char_of_is hp, hplaced.1]
      exact .point hword hkind
    | exponent =>
      obtain ⟨rfl, m, c, after, rfl, hm, hc⟩ := hmeets
      obtain rfl := Except.error.inj h
      rw [Bool.or_eq_true, Glyph.isSign_iff] at hc
      show Stuck before (w ++ m.char :: c.char :: _) (.repeatedExponent _ m.position)
      rw [hplaced.1]
      exact .exponent hword (Glyph.isExponentMark_iff.1 hm) hc

/-- What is no token gives its error. -/
theorem outcome (h : Stuck before (gs.map (·.char)) e) (pipes : Bool) (hplaced : Placed before gs) :
    ∃ g hs, gs = g :: hs ∧ Gap.Ends g hs ∧ (Lexeme.read pipes g hs).outcome = .error e := by
  generalize htext : gs.map (·.char) = text at h
  cases h with
  | character hc hblank =>
    obtain ⟨g, hs, rfl, rfl, -⟩ := List.map_eq_cons_iff.1 htext
    rw [← hplaced.1]
    refine ⟨g, hs, rfl, ⟨?_, fun hslash => ?_⟩, Lexeme.read_of_isControl hc⟩
    · rw [← Bool.not_eq_true]
      exact fun hw => hblank (Glyph.mem_blanks hw)
    · rw [Glyph.char_of_is hslash] at hc
      exact absurd hc (by decide)
  | point hw hkind =>
    obtain ⟨ws, rest, rfl, rfl, hrest⟩ := List.map_eq_append_iff.1 htext
    obtain ⟨p, after, rfl, hp, -⟩ := List.map_eq_cons_iff.1 hrest
    obtain ⟨g, hs, rfl, hread⟩ := Lexeme.exists_of_numberText hw
    obtain ⟨hnumber, hread⟩ := hread (p :: after)
    rw [NumberTail.read_point_of_ne (Glyph.is_of_char hp (by decide)) hkind] at hread
    refine ⟨g, hs ++ p :: after, rfl, Lexeme.ends_of_beginsNumber hnumber, ?_⟩
    rw [Lexeme.read_of_beginsNumber hnumber, ← (placed_append.1 hplaced).2.1,
      ← Lexeme.numberSource_eq_map]
    simp [Lexeme.number, hread, NumberTail.prepend]
  | exponent hw hm hc =>
    obtain ⟨ws, rest, rfl, rfl, hrest⟩ := List.map_eq_append_iff.1 htext
    obtain ⟨m, after, rfl, rfl, hafter⟩ := List.map_eq_cons_iff.1 hrest
    obtain ⟨h, after, rfl, rfl, -⟩ := List.map_eq_cons_iff.1 hafter
    obtain ⟨g, hs, rfl, hread⟩ := Lexeme.exists_of_numberText hw
    obtain ⟨hnumber, hread⟩ := hread (m :: h :: after)
    rw [← Glyph.isSign_iff, ← Glyph.isDigit, ← Bool.or_eq_true] at hc
    rw [NumberTail.read_exponent_of_scientific (Glyph.isExponentMark_iff.2 hm) hc] at hread
    refine ⟨g, hs ++ m :: h :: after, rfl, Lexeme.ends_of_beginsNumber hnumber, ?_⟩
    rw [Lexeme.read_of_beginsNumber hnumber, ← (placed_append.1 hplaced).2.1,
      ← Lexeme.numberSource_eq_map]
    simp [Lexeme.number, hread, NumberTail.prepend]

end Stuck

/-- What keeps a token from being read, behind some other text: a block comment that is not closed,
or what there is behind a gap. No gap begins with either of them, so that the gap before it is as
long as it can be. -/
inductive Fault (before : List Char) : List Char → Error → Prop
  | comment {gap body} (hgap : IsGap gap ('/' :: '*' :: body)) (hbody : ¬ ['*', '/'] <:+: body) :
    Fault before (gap ++ '/' :: '*' :: body)
      (.unclosedComment (.reach (before ++ (gap ++ '/' :: '*' :: body))))
  | token {gap rest e} (hgap : IsGap gap rest) (hstuck : Stuck (before ++ gap) rest e) :
    Fault before (gap ++ rest) e

theorem Fault.kind_eq {before text : List Char} {e : Error} (h : Fault before text e) :
    e.kind = .lexical := by
  cases h with
  | comment => rfl
  | token _ hstuck => cases hstuck <;> rfl

namespace Scan

variable {pipes : Bool} {last : Position} {gs : List Glyph} {before : List Char} {e : Error}

/-- A step that gives an error. -/
theorem exists_of_error (h : (read pipes last gs).outcome = .error e) :
    (∃ gap rest, Gap.read .blank gs = ⟨gap, rest, false⟩ ∧
        e = .unclosedComment ((rest.head?.map (·.position)).getD last)) ∨
      ∃ gap g rest, Gap.read .blank gs = ⟨gap, g :: rest, true⟩ ∧ g.isEnd = false ∧
        (Lexeme.read pipes g rest).outcome = .error e := by
  rcases hgap : Gap.read .blank gs with ⟨gap, rest, closed⟩
  cases closed with
  | false =>
    simp only [read, hgap, Bool.false_eq_true, if_false] at h
    exact .inl ⟨gap, rest, rfl, (Except.error.inj h).symm⟩
  | true =>
    cases rest with
    | nil => simp [read, hgap] at h
    | cons g rest =>
      cases he : g.isEnd with
      | true => simp [read, hgap, he] at h
      | false =>
        rw [(read_of_gap pipes last hgap he).1] at h
        cases ho : (Lexeme.read pipes g rest).outcome with
        | error e' =>
          rw [ho] at h
          obtain rfl := Except.error.inj h
          exact .inr ⟨gap, g, rest, rfl, he, ho⟩
        | ok t =>
          rw [ho] at h
          cases h

theorem fault_of_outcome (hun : Unended gs) (hplaced : Placed before gs)
    (hlast : last = .reach (before ++ gs.map (·.char)))
    (h : (read pipes last gs).outcome = .error e) : Fault before (gs.map (·.char)) e := by
  rcases exists_of_error h with ⟨gap, rest, hgap, rfl⟩ | ⟨gap, g, rest, hgap, he, ho⟩
  · obtain rfl : rest = [] := by
      cases rest with
      | nil => rfl
      | cons g rest =>
        have hall := Gap.glyphs_append_rest .blank gs
        rw [hgap] at hall
        have hend := hun g (by simp [← hall])
        rw [Gap.isEnd_of_open hgap] at hend
        cases hend
    obtain ⟨gap', body, htext, hgap', hbody⟩ := Gap.unclosed_of_read .blank gs hun (by rw [hgap])
    show Fault before _ (.unclosedComment last)
    rw [hlast, htext]
    exact .comment hgap' hbody
  · obtain ⟨rfl, hisGap⟩ := Gap.isGap_of_read hun hgap
    have hplaced := (placed_append.1 hplaced).2
    rw [List.map_append]
    refine .token hisGap ?_
    rcases Lexeme.error_cases ho with ⟨hnumber, ho⟩ | ⟨hcontrol, rfl⟩
    · exact .of_number hnumber hplaced ho
    · rw [hplaced.1]
      refine .character hcontrol fun hblank => ?_
      have hw := (Gap.ends_of_read hgap he).1
      rw [Glyph.isWhitespace_of_mem_blanks hblank] at hw
      cases hw

theorem outcome_of_fault (hun : Unended gs) (hplaced : Placed before gs)
    (hlast : last = .reach (before ++ gs.map (·.char)))
    (h : Fault before (gs.map (·.char)) e) : (read pipes last gs).outcome = .error e := by
  generalize htext : gs.map (·.char) = text at h
  rw [htext] at hlast
  cases h with
  | comment hgap hbody =>
    obtain ⟨gs, rest, rfl, rfl, hrest⟩ := List.map_eq_append_iff.1 htext
    obtain ⟨s, rest, rfl, hs, hrest⟩ := List.map_eq_cons_iff.1 hrest
    obtain ⟨t, body, rfl, ht, rfl⟩ := List.map_eq_cons_iff.1 hrest
    obtain ⟨hungap, hun⟩ := unended_append.1 hun
    have hunbody := (unended_cons.1 (unended_cons.1 hun).2).2
    have hisGap : IsGap (gs.map (·.char)) ((s :: t :: body).map (·.char)) := by
      rwa [List.map_cons, List.map_cons, hs, ht]
    have hread := Gap.read_of_isGap hungap hisGap
    rw [Gap.read_block_open hs ht, Gap.read_block_unclosed hunbody hbody] at hread
    simp [read, hread, Gap.prepend, hlast]
  | token hgap hstuck =>
    obtain ⟨gs, rest, rfl, rfl, rfl⟩ := List.map_eq_append_iff.1 htext
    obtain ⟨hungap, hun⟩ := unended_append.1 hun
    obtain ⟨g, hs, rfl, hends, hout⟩ := hstuck.outcome pipes (placed_append.1 hplaced).2
    have hread := Gap.read_of_isGap hungap hgap
    rw [Gap.read_of_ends hends] at hread
    rw [(read_of_gap pipes last hread (unended_cons.1 hun).1).1, hout]
    rfl

end Scan

namespace Lexer

variable {l : Lexer} {before : List Char} {e : Error}

/-- Some text is taken off the front of a source, and a lexer goes on behind it. -/
structure Behind (before : List Char) (l : Lexer) : Prop where
  unbroken : l.failure = none
  unended : Unended l.ahead
  placed : Placed before l.ahead
  last_eq : l.last = .reach (before ++ l.ahead.map (·.char))

namespace Behind

/-- What a lexer has taken when it is asked for a token. -/
theorem asked (h : l.Behind before) : ∃ taken,
    before ++ l.ahead.map (·.char) = before ++ taken ++ l.asked.ahead.map (·.char) ∧
      l.asked.Behind (before ++ taken) := by
  obtain ⟨hl, hun, hplaced, hlast⟩ := h
  have hall : l.next.gap ++ l.next.lexeme ++ l.next.rest = l.ahead :=
    Scan.glyphs_append_rest l.pipeBrackets l.last l.ahead
  have hun' := (Scan.unended_iff l.pipeBrackets l.last l.ahead).1 hun
  have htext := congrArg (List.map (·.char)) hall
  rw [List.map_append] at htext
  rw [← hall, placed_append] at hplaced
  rw [← htext, ← List.append_assoc] at hlast
  rw [asked_eq, ← htext, ← List.append_assoc]
  exact ⟨_, rfl, hl, hun', hplaced.2, hlast⟩

theorem after (h : l.Behind before) (n : ℕ) : ∃ taken,
    before ++ l.ahead.map (·.char) = taken ++ (l.after n).ahead.map (·.char) ∧
      (l.after n).Behind taken := by
  induction n generalizing l before with
  | zero => exact ⟨before, rfl, h⟩
  | succ n ih =>
    obtain ⟨taken, htext, hasked⟩ := h.asked
    obtain ⟨taken', htext', hafter⟩ := ih hasked
    exact ⟨taken', htext.trans htext', hafter⟩

/-- A lexer fails where there is a fault ahead, and nowhere else. -/
theorem fetch_eq_error_iff (h : l.Behind before) :
    (∃ l', fetch l = .error e l') ↔ Fault before (l.ahead.map (·.char)) e := by
  obtain ⟨hl, hun, hplaced, hlast⟩ := h
  have hstep : (∃ l', fetch l = .error e l') ↔ l.next.outcome = .error e := by
    rw [← outcome_of_unbroken hl]
    unfold fetch
    dsimp only
    constructor
    · rintro ⟨l', hfetch⟩
      split at hfetch
      · cases hfetch
      · next ho =>
        obtain ⟨rfl, -⟩ := EStateM.Result.error.inj hfetch
        exact ho
    · intro ho
      rw [ho]
      exact ⟨_, rfl⟩
  rw [hstep]
  exact ⟨Scan.fault_of_outcome hun hplaced hlast, Scan.outcome_of_fault hun hplaced hlast⟩

end Behind

theorem behind_ofSource (settings : Settings) {bytes : List UInt8} (hbytes : 0 ∉ bytes) :
    (ofSource settings { bytes }).Behind [] ∧
      (ofSource settings { bytes }).ahead.map (·.char) = bytes.map Char.ofUInt8 := by
  let source : Source := { bytes }
  have hchars : source.glyphs.map (·.char) = bytes.map Char.ofUInt8 := by
    have hplain := congrArg (List.map (·.char)) source.unplaced_glyphs
    rwa [Source.plain, List.map_map, List.map_map] at hplain
  have hlast : source.last = .reach (bytes.map Char.ofUInt8) := by
    rw [← List.nil_append (List.map _ _), ← Position.foldl_after, List.foldl_map]
    rfl
  refine ⟨⟨rfl, source.unended_glyphs_iff.2 hbytes, Source.placed_glyphsFrom [] bytes, ?_⟩, hchars⟩
  show source.last = .reach ([] ++ source.glyphs.map (·.char))
  rw [hchars, hlast, List.nil_append]

/-- However often it has been asked before, a lexer fails if and only if there is a fault in what it
has ahead, with the lexical error that belongs to this fault; and otherwise it gives a token or the
end. -/
theorem fetch_error_iff_fault (settings : Settings) {bytes : List UInt8} (hbytes : 0 ∉ bytes)
    (n : ℕ) :
    let l := (ofSource settings { bytes }).after n
    let text := l.ahead.map (·.char)
    ∃ before, bytes.map Char.ofUInt8 = before ++ text ∧
      (∀ e, (∃ l', fetch l = .error e l') ↔ Fault before text e) ∧
        (∀ e, Fault before text e → e.kind = .lexical) ∧
          ((∀ e, ¬ Fault before text e) → ∃ token? l', fetch l = .ok token? l') := by
  intro l text
  obtain ⟨hstart, hchars⟩ := behind_ofSource settings hbytes
  obtain ⟨before, htext, hl⟩ := hstart.after n
  refine ⟨before, ?_, fun e => hl.fetch_eq_error_iff, fun e => Fault.kind_eq, fun hnone => ?_⟩
  · rw [← hchars, ← htext, List.nil_append]
  · cases hfetch : fetch l with
    | ok token? l' => exact ⟨token?, l', rfl⟩
    | error e l' => exact absurd (hl.fetch_eq_error_iff.1 ⟨l', hfetch⟩) (hnone e)

theorem fetch_error_iff_fault_of_points :
    let bytes := (Source.ofString "x/**/ 1_0e2.5").bytes
    let l := (ofSource {} { bytes }).after 1
    let e := Error.repeatedPoint "1_0E2" ⟨1, 12⟩
    0 ∉ bytes ∧ (∃ l', fetch l = .error e l') ∧
      ∃ before, Fault before (l.ahead.map (·.char)) e := by
  intro bytes l e
  have hbytes : 0 ∉ bytes := by decide +kernel
  have hfetch : ∃ l', fetch l = .error e l' := ⟨l.asked, rfl⟩
  obtain ⟨before, -, herror, -⟩ := fetch_error_iff_fault {} hbytes 1
  exact ⟨hbytes, hfetch, before, (herror e).1 hfetch⟩

end Lexer

end Reckon
