import Reckon.Proofs.EndOfInput
import Reckon.Proofs.Locality
import Mathlib.Data.List.DropRight
import Mathlib.Data.List.Infix

/-!
# The layout of texts

A text that has tokens is made of the words of these tokens, in their order, and of gaps before,
between and after them. A gap is made of blanks and comments. A word is the source of its token,
except that the mark of an exponent may be small in the text and is recorded as a capital. The place
of a token is that of the first character of its word, and the place of the end is how far the whole
text reaches.

## Main definitions

* `Position.reach` — how far some text reaches.
* `IsGap` — blanks and comments.
* `Token.IsWritten` — the word of a token.
* `LaidOut` — a text as gaps and words, with the places of the tokens.

## Main statements

* `Gap.isGap_of_read` — what is skipped before a token is made of blanks and closed comments.
* `Lexeme.isWritten_glyphs` — a token is written as the glyphs that it takes.
* `Settings.laidOut_of_tokens` — the layout of a text that has tokens.
-/

namespace Reckon

/-! ### Places -/

/-- How far a text reaches: its last line, and how much there is in that line. -/
def Position.reach (text : List Char) : Position :=
  ⟨1 + text.count '\n', (text.rtakeWhile (· != '\n')).length⟩

namespace Position

theorem reach_concat (text : List Char) (c : Char) :
    reach (text ++ [c]) = (reach text).after c := by
  by_cases hc : c = '\n'
  · subst hc
    simp [reach, after, Nat.add_assoc]
  · simp [reach, after, next, hc]

theorem foldl_after (text rest : List Char) :
    rest.foldl after (reach text) = reach (text ++ rest) := by
  induction rest generalizing text with
  | nil => rw [List.foldl_nil, List.append_nil]
  | cons c rest ih =>
    rw [List.foldl_cons, ← reach_concat, ih, List.append_assoc, List.singleton_append]

end Position

/-- Some glyphs stand where they do behind the given text. -/
def Placed (before : List Char) : List Glyph → Prop
  | [] => True
  | g :: gs => g.position = (Position.reach before).next ∧ Placed (before ++ [g.char]) gs

theorem placed_append {before : List Char} {gs hs : List Glyph} :
    Placed before (gs ++ hs) ↔ Placed before gs ∧ Placed (before ++ gs.map (·.char)) hs := by
  induction gs generalizing before with
  | nil => simp [Placed]
  | cons g gs ih => simp [Placed, ih, and_assoc]

theorem Source.placed_glyphsFrom (before : List Char) (bytes : List UInt8) :
    Placed before (glyphsFrom (.reach before) bytes) := by
  induction bytes generalizing before with
  | nil => trivial
  | cons b bytes ih =>
    refine ⟨rfl, ?_⟩
    rw [← Position.reach_concat]
    exact ih _

/-! ### Gaps -/

/-- The whitespace among the first 256 characters. -/
def blanks : List Char := ['\t', '\n', '\x0B', '\x0C', '\r', ' ', '\x85', '\xA0']

/-- A gap, before some text: blanks, comments from `//` up to the next line feed or the end of the
text, and comments from `/*` to the next `*/`. -/
inductive IsGap : List Char → List Char → Prop
  | nil {after} : IsGap [] after
  | blank {c gap after} (hc : c ∈ blanks) (hgap : IsGap gap after) : IsGap (c :: gap) after
  | lineComment {body gap after} (hbody : '\n' ∉ body)
      (hstop : ∀ c ∈ (gap ++ after).head?, c = '\n') (hgap : IsGap gap after) :
      IsGap ('/' :: '/' :: (body ++ gap)) after
  | blockComment {body gap after} (hbody : ¬ ['*', '/'] <:+: body) (hgap : IsGap gap after) :
      IsGap ('/' :: '*' :: (body ++ '*' :: '/' :: gap)) after

/-- What is left of a gap, before some text, from inside one of its parts. -/
def IsGap.From (after : List Char) : Gap.Part → List Char → Prop
  | .blank, gap => IsGap gap after
  | .lineComment, rest => ∃ body gap, rest = body ++ gap ∧ '\n' ∉ body ∧
      (∀ c ∈ (gap ++ after).head?, c = '\n') ∧ IsGap gap after
  | .blockComment, rest => ∃ body gap, rest = body ++ '*' :: '/' :: gap ∧
      ¬ ['*', '/'] <:+: body ∧ IsGap gap after

theorem Glyph.mem_blanks {g : Glyph} (h : g.isWhitespace) : g.char ∈ blanks := by
  simp only [isWhitespace, Bool.or_eq_true, Bool.and_eq_true, decide_eq_true_eq, beq_iff_eq] at h
  have hcode : g.char.toNat ∈ blanks.map Char.toNat := by
    simp [blanks]
    omega
  obtain ⟨c, hc, he⟩ := List.mem_map.1 hcode
  rwa [← Char.toNat_inj.1 he]

/-- What is skipped from inside a part of a gap is what is left of the gap. -/
theorem Gap.from_read (part : Part) (gs : List Glyph) (hun : Unended gs)
    (hclosed : (read part gs).closed) :
    IsGap.From ((read part gs).rest.map (·.char)) part ((read part gs).glyphs.map (·.char)) := by
  fun_induction read part gs
  case case1 part =>
    cases part with
    | blank => exact .nil
    | lineComment => exact ⟨[], [], rfl, by simp, by simp, .nil⟩
    | blockComment => cases hclosed
  case case2 g gs hw ih =>
    exact .blank (Glyph.mem_blanks hw) (ih (unended_cons.1 hun).2 hclosed)
  case case3 => exact .nil
  case case4 g hw h hs hopen ih =>
    obtain ⟨hg, hh⟩ := Bool.and_eq_true_iff.1 hopen
    obtain ⟨body, gap, he, hbody, hstop, hgap⟩ :=
      ih (unended_cons.1 (unended_cons.1 hun).2).2 hclosed
    simp only [glyphs_cons, rest_cons, List.map_cons, he, Glyph.char_of_is hg, Glyph.char_of_is hh]
    exact .lineComment hbody hstop hgap
  case case5 g hw h hs _ hopen ih =>
    obtain ⟨hg, hh⟩ := Bool.and_eq_true_iff.1 hopen
    obtain ⟨body, gap, he, hbody, hgap⟩ := ih (unended_cons.1 (unended_cons.1 hun).2).2 hclosed
    simp only [glyphs_cons, rest_cons, List.map_cons, he, Glyph.char_of_is hg, Glyph.char_of_is hh]
    exact .blockComment hbody hgap
  case case6 => exact .nil
  -- The end of the text is the only end: there is no end mark.
  case case7 g gs he =>
    rw [(unended_cons.1 hun).1] at he
    cases he
  case case8 g gs he hn ih =>
    have hfeed : g.char = '\n' := beq_iff_eq.1 hn
    have hgap : IsGap _ _ := ih (unended_cons.1 hun).2 hclosed
    refine ⟨[], _, rfl, by simp, ?_, .blank ?_ hgap⟩
    · simp [hfeed]
    · simp [hfeed, blanks]
  case case9 g gs he hn ih =>
    have hfeed : g.char ≠ '\n' := fun h => hn (beq_iff_eq.2 h)
    obtain ⟨body, gap, hbody, hno, hstop, hgap⟩ := ih (unended_cons.1 hun).2 hclosed
    exact ⟨g.char :: body, gap, by simp [hbody], by simp [hno, hfeed.symm], hstop, hgap⟩
  case case10 => cases hclosed
  case case11 g he ih => cases hclosed
  case case12 g he h hs hclose ih =>
    obtain ⟨hg, hh⟩ := Bool.and_eq_true_iff.1 hclose
    have hgap : IsGap _ _ := ih (unended_cons.1 (unended_cons.1 hun).2).2 hclosed
    refine ⟨[], _, ?_, by simp, hgap⟩
    simp [Glyph.char_of_is hg, Glyph.char_of_is hh]
  case case13 g he h hs hclose ih =>
    obtain ⟨body, gap, hbody, hno, hgap⟩ := ih (unended_cons.1 hun).2 hclosed
    refine ⟨g.char :: body, gap, by simp [hbody], fun hin => ?_, hgap⟩
    obtain ⟨tail, htail⟩ | hin := List.infix_cons_iff.1 hin
    · -- The comment would have been closed by these two glyphs.
      obtain ⟨hstar, rfl⟩ := List.cons.inj htail
      have hall := congrArg (List.map (·.char)) (glyphs_append_rest .blockComment (h :: hs))
      rw [List.map_append, hbody] at hall
      have hslash : '/' = h.char := (List.cons.inj hall).1
      have hend := (unended_cons.1 (unended_cons.1 hun).2).1
      refine hclose ?_
      simp [Glyph.is, ← hstar, ← hslash, hend, (unended_cons.1 hun).1]
    · exact hno hin

/-- What is skipped before a token is a gap. -/
theorem Gap.isGap_of_read {gs gap rest : List Glyph} (hun : Unended gs)
    (h : read .blank gs = ⟨gap, rest, true⟩) :
    gs = gap ++ rest ∧ IsGap (gap.map (·.char)) (rest.map (·.char)) := by
  have hall := glyphs_append_rest .blank gs
  have hgap := from_read .blank gs hun (by rw [h])
  rw [h] at hall hgap
  exact ⟨hall.symm, hgap⟩

/-! ### Words -/

/-- A token is written as a word: the word is its source, but for an exponent mark that is small in
the word. -/
def Token.IsWritten (t : Token) (word : List Char) : Prop :=
  word ≠ [] ∧ (t.source = String.ofList word ∨ t.kind = .scientific ∧
    ∃ mantissa exponent, word = mantissa ++ 'e' :: exponent ∧
      t.source = String.ofList (mantissa ++ 'E' :: exponent))

theorem Glyph.isExponentMark_of_is {g : Glyph} {c : Char} (h : g.is c) (he : c ≠ 'e')
    (hE : c ≠ 'E') : g.isExponentMark = false := by
  obtain rfl := char_of_is h
  simp [isExponentMark, isAny, is, he, hE]

theorem Glyph.isExponentMark_of_isSign {g : Glyph} (h : g.isSign) : g.isExponentMark = false := by
  obtain ⟨c, hc, hg⟩ := List.any_eq_true.1 h
  obtain rfl | rfl : c = '+' ∨ c = '-' := by simpa using hc
  all_goals exact isExponentMark_of_is hg (by decide) (by decide)

/-- The glyphs of a number of class `kind`: there is at most one exponent mark among them, and with
one the number is scientific. -/
def MarkedOnce (kind : Token.Kind) (gs : List Glyph) : Prop :=
  (∀ g ∈ gs, g.isExponentMark = false) ∨ kind = .scientific ∧
    ∃ us m vs, gs = us ++ m :: vs ∧ m.isExponentMark ∧ ∀ g ∈ us ++ vs, g.isExponentMark = false

theorem MarkedOnce.cons {kind : Token.Kind} {g : Glyph} {gs : List Glyph}
    (hg : g.isExponentMark = false) (h : MarkedOnce kind gs) : MarkedOnce kind (g :: gs) := by
  obtain h | ⟨hk, us, m, vs, rfl, hm, h⟩ := h
  · exact .inl (List.forall_mem_cons.2 ⟨hg, h⟩)
  · exact .inr ⟨hk, g :: us, m, vs, rfl, hm, List.forall_mem_cons.2 ⟨hg, h⟩⟩

namespace NumberTail

theorem isExponentMark_eq_false {g : Glyph} {gs : List Glyph}
    (h : g.isDigit || (g.is '_' && nextIs Glyph.isDigit gs)) : g.isExponentMark = false := by
  rw [Bool.or_eq_true, Bool.and_eq_true] at h
  obtain h | ⟨h, -⟩ := h
  · exact (Glyph.of_isDigit h).2.2.1
  · exact Glyph.isExponentMark_of_is h (by decide) (by decide)

/-- Behind an exponent mark there is no other. -/
theorem unmarked_read {kind : Token.Kind} (gs : List Glyph) (hk : kind = .scientific) :
    (read kind gs).kind = .scientific ∧ ∀ g ∈ (read kind gs).glyphs, g.isExponentMark = false := by
  fun_induction read kind gs
  case case2 kind g gs hg ih =>
    obtain ⟨hkind, hall⟩ := ih hk
    exact ⟨hkind, List.forall_mem_cons.2 ⟨isExponentMark_eq_false hg, hall⟩⟩
  case case3 => cases hk
  case case7 | case8 => contradiction
  all_goals exact ⟨hk, List.forall_mem_nil _⟩

/-- A number takes in one exponent at most. -/
theorem markedOnce_read (kind : Token.Kind) (gs : List Glyph) :
    MarkedOnce (read kind gs).kind (read kind gs).glyphs := by
  fun_induction read kind gs
  case case2 kind g gs hg ih =>
    exact ih.cons (isExponentMark_eq_false hg)
  case case3 g gs hg hpoint ih =>
    exact ih.cons (Glyph.isExponentMark_of_is hpoint (by decide) (by decide))
  case case7 kind g hpoint hk h hs hsign hg hmark ih =>
    obtain ⟨hkind, hall⟩ := unmarked_read hs rfl
    refine .inr ⟨hkind, [], g, _, rfl, (Bool.and_eq_true_iff.1 hmark).1, ?_⟩
    exact List.forall_mem_cons.2 ⟨Glyph.isExponentMark_of_isSign hsign, hall⟩
  case case8 kind g hpoint hk h hs hsign hg hmark ih =>
    obtain ⟨hkind, hall⟩ := unmarked_read (h :: hs) rfl
    exact .inr ⟨hkind, [], g, _, rfl, (Bool.and_eq_true_iff.1 hmark).1, hall⟩
  all_goals exact .inl (List.forall_mem_nil _)

end NumberTail

namespace Lexeme

theorem isWritten_number {t : Token} {gs : List Glyph} (hne : gs ≠ [])
    (hsource : t.source = String.ofList (numberSource gs)) (h : MarkedOnce t.kind gs) :
    t.IsWritten (gs.map (·.char)) := by
  have hplain {gs : List Glyph} (h : ∀ g ∈ gs, g.isExponentMark = false) :
      numberSource gs = gs.map (·.char) := List.map_congr_left fun g hg => by simp [h g hg]
  refine ⟨by simpa using hne, ?_⟩
  obtain h | ⟨hk, us, m, vs, rfl, hm, h⟩ := h
  · exact .inl (by rw [hsource, hplain h])
  · obtain ⟨hus, hvs⟩ := List.forall_mem_append.1 h
    have happend : numberSource (us ++ m :: vs) = us.map (·.char) ++ 'E' :: vs.map (·.char) := by
      rw [← hplain hus, ← hplain hvs]
      simp [numberSource, hm]
    rw [happend] at hsource
    obtain ⟨c, hc, hm⟩ := List.any_eq_true.1 hm
    have hchar : m.char = c := Glyph.char_of_is hm
    obtain rfl | rfl : c = 'e' ∨ c = 'E' := by simpa using hc
    · exact .inr ⟨hk, us.map (·.char), vs.map (·.char), by simp [hchar], hsource⟩
    · exact .inl (by simp [hsource, hchar])

/-- A number does not begin with an exponent mark. -/
theorem unmarked_of_beginsNumber {g : Glyph} {gs : List Glyph} (h : beginsNumber g gs) :
    g.isExponentMark = false := by
  simp only [beginsNumber, Bool.or_eq_true, Bool.and_eq_true] at h
  obtain (h | ⟨h, -⟩) | ⟨h, -⟩ := h
  · exact (Glyph.of_isDigit h).2.2.1
  · exact Glyph.isExponentMark_of_is h (by decide) (by decide)
  · exact Glyph.isExponentMark_of_is h (by decide) (by decide)

theorem number_isWritten {g : Glyph} {gs : List Glyph} {t : Token}
    (hg : g.isExponentMark = false) (h : (number g gs).outcome = .ok t) :
    t.position = g.position ∧ t.IsWritten ((number g gs).glyphs.map (·.char)) := by
  unfold number at h ⊢
  dsimp only at h ⊢
  generalize (if g.is '.' then Token.Kind.decimal else .integer) = kind at h ⊢
  cases hfault : (NumberTail.read kind gs).fault with
  | some fault => cases fault <;> simp [hfault] at h
  | none =>
    rw [hfault] at h
    obtain rfl := Except.ok.inj h
    refine ⟨rfl, isWritten_number (List.cons_ne_nil _ _) rfl ?_⟩
    exact (NumberTail.markedOnce_read kind gs).cons hg

theorem symbol_isWritten {g : Glyph} {gs : List Glyph} {t : Token}
    (h : (symbol g gs).outcome = .ok t) :
    t.position = g.position ∧ t.IsWritten ((symbol g gs).glyphs.map (·.char)) := by
  unfold symbol at h ⊢
  split at h
  · split at h
    all_goals
      obtain rfl := Except.ok.inj h
      simp_all [Token.IsWritten, symbolToken]
  · obtain rfl := Except.ok.inj h
    exact ⟨rfl, by simp, .inl rfl⟩

/-- A token is written as its glyphs and stands where the first of them does. -/
theorem isWritten_glyphs {pipes : Bool} {g : Glyph} {gs : List Glyph} {t : Token}
    (he : g.isEnd = false) (h : (read pipes g gs).outcome = .ok t) :
    t.position = g.position ∧ t.IsWritten ((read pipes g gs).glyphs.map (·.char)) := by
  unfold read at h ⊢
  split_ifs at h ⊢ with hnumber hletter hbracket hcontrol
  · exact number_isWritten (unmarked_of_beginsNumber hnumber) h
  · obtain rfl := Except.ok.inj h
    exact ⟨rfl, by simp [name], .inl rfl⟩
  · have ht : Token.ofGlyph .symbol g = t := Except.ok.inj h
    subst ht
    rw [Token.ofGlyph, he]
    exact ⟨rfl, by simp [bracket], .inl rfl⟩
  · exact symbol_isWritten h

end Lexeme

/-! ### Texts -/

/-- What follows a text consists of gaps and of the words of tokens, and each token stands where its
word does. -/
inductive LaidOut : List Char → List Char → List Token → Prop
  | ending {before gap} (hgap : IsGap gap []) : LaidOut before gap []
  | token {before gap word rest t ts} (hgap : IsGap gap (word ++ rest)) (hword : t.IsWritten word)
      (hplace : t.position = (Position.reach (before ++ gap)).next)
      (hrest : LaidOut (before ++ gap ++ word) rest ts) :
      LaidOut before (gap ++ word ++ rest) (t :: ts)

namespace Scan

variable {pipes : Bool} {last : Position} {gs : List Glyph} {before : List Char} {t : Token}

/-- A step that gives a token takes a gap and the word of the token. -/
theorem exists_word (hun : Unended gs) (hplaced : Placed before gs)
    (h : (read pipes last gs).outcome = .ok (some t)) :
    ∃ gap word rest, gs.map (·.char) = gap ++ word ++ rest ∧
      rest = (read pipes last gs).rest.map (·.char) ∧ IsGap gap (word ++ rest) ∧ t.IsWritten word ∧
        t.position = (Position.reach (before ++ gap)).next ∧
          Placed (before ++ gap ++ word) (read pipes last gs).rest := by
  obtain ⟨gap, g, after, hgap, he, hout, hrest⟩ := exists_of_token h
  obtain ⟨hplace, hword⟩ := Lexeme.isWritten_glyphs he hout
  obtain ⟨h', lexeme, hcons⟩ := List.exists_cons_of_ne_nil (Lexeme.glyphs_ne_nil hout)
  obtain ⟨rfl, hisGap⟩ := Gap.isGap_of_read hun hgap
  have hlexeme := Lexeme.glyphs_append_rest pipes g after
  rw [hrest]
  generalize Lexeme.read pipes g after = lex at *
  -- The first glyph of the token is the one that the gap has come to.
  obtain rfl : g = h' := by
    rw [hcons] at hlexeme
    exact (List.cons.inj hlexeme).1.symm
  rw [← hlexeme] at hisGap hplaced ⊢
  rw [placed_append, placed_append] at hplaced
  obtain ⟨-, hfirst, hlater⟩ := hplaced
  refine ⟨gap.map (·.char), lex.glyphs.map (·.char), _, by simp, rfl, by simpa using hisGap, hword,
    ?_, hlater⟩
  rw [hcons] at hfirst
  rw [hplace, hfirst.1]

theorem isGap_of_end (hun : Unended gs) (h : (read pipes last gs).outcome = .ok none) :
    IsGap (gs.map (·.char)) [] ∧ (read pipes last gs).rest = [] := by
  obtain ⟨gap, rest, hgap, hread, hrest⟩ := exists_of_end h
  obtain ⟨rfl, hisGap⟩ := Gap.isGap_of_read hun hgap
  rw [hread]
  obtain rfl | ⟨g, after, rfl, he⟩ := hrest
  · exact ⟨by simpa using hisGap, rfl⟩
  · rw [unended_append, unended_cons, he] at hun
    cases hun.2.1

end Scan

/-- The tokens of a lexer are laid out in what it has ahead, up to the end of it. -/
theorem Lexer.laidOut_of_ending {l : Lexer} {before : List Char} {place : Position}
    (hl : l.failure = none) (hun : Unended l.ahead) (hplaced : Placed before l.ahead)
    (h : l.tokens.ending = .ok place) :
    LaidOut before (l.ahead.map (·.char)) l.tokens.ahead ∧ place = l.last := by
  induction hts : l.tokens.ahead generalizing l before with
  | nil =>
    obtain ⟨hnext, -, rfl⟩ | ⟨t, -, hcons, -⟩ := step_of_ending hl h
    · obtain ⟨hgap, hrest⟩ := Scan.isGap_of_end hun hnext
      refine ⟨.ending hgap, ?_⟩
      simp [position, advance, hrest]
    · rw [hcons] at hts
      cases hts
  | cons t ts ih =>
    obtain ⟨-, hnil, -⟩ | ⟨t', hnext, hcons, hending⟩ := step_of_ending hl h
    · rw [hnil] at hts
      cases hts
    · obtain ⟨rfl, htail⟩ := List.cons.inj (hcons.symm.trans hts)
      obtain ⟨gap, word, rest, hahead, rfl, hgap, hword, hplace, hplaced'⟩ :=
        Scan.exists_word hun hplaced hnext
      have hun' := (Scan.unended_iff l.pipeBrackets l.last l.ahead).1 hun
      obtain ⟨hlaid, hlast⟩ := ih (l := l.advance l.next) hl hun' hplaced' hending htail
      exact ⟨hahead ▸ .token hgap hword hplace hlaid, hlast⟩

/-- A text without NUL bytes that has tokens is laid out as gaps and the words of these tokens, and
its end is where the whole text reaches to. -/
theorem Settings.laidOut_of_tokens {settings : Settings} {bytes : List UInt8} {place : Position}
    (hbytes : 0 ∉ bytes) (h : (settings.tokens bytes).ending = .ok place) :
    LaidOut [] (bytes.map Char.ofUInt8) (settings.tokens bytes).ahead ∧
      place = .reach (bytes.map Char.ofUInt8) := by
  let source : Source := { bytes }
  -- The invariants hold at the beginning, where nothing stands before the text.
  have hun : Unended source.glyphs := source.unended_glyphs_iff.2 hbytes
  have hplaced : Placed [] source.glyphs := Source.placed_glyphsFrom [] bytes
  have hchars : source.glyphs.map (·.char) = bytes.map Char.ofUInt8 := by
    have hplain := congrArg (List.map (·.char)) source.unplaced_glyphs
    rwa [Source.plain, List.map_map, List.map_map] at hplain
  have hlast : source.last = .reach (bytes.map Char.ofUInt8) := by
    rw [← List.nil_append (List.map _ _), ← Position.foldl_after, List.foldl_map]
    rfl
  rw [← hchars, ← hlast] at *
  exact Lexer.laidOut_of_ending rfl hun hplaced h

theorem Settings.laidOut_of_tokens_lines :
    let bytes := (Source.ofString "1_0e-3 // one\n* /* two */ f(x)").bytes
    let tokens := ({} : Settings).tokens bytes
    tokens.ahead.map (fun t => (t.source, t.position.text)) =
        [("1_0E-3", "1:1"), ("*", "2:1"), ("f", "2:13"), ("(", "2:14"), ("x", "2:15"),
          (")", "2:16")] ∧
      LaidOut [] (bytes.map Char.ofUInt8) tokens.ahead ∧
        Position.reach (bytes.map Char.ofUInt8) = ⟨2, 16⟩ := by
  intro bytes tokens
  have hending : tokens.ending = .ok ⟨2, 16⟩ := ok_of_toOption (by decide +kernel)
  obtain ⟨hlaid, hplace⟩ := laidOut_of_tokens (by decide +kernel) hending
  exact ⟨by decide +kernel, hlaid, hplace.symm⟩

end Reckon
