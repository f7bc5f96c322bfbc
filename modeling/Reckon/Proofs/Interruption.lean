import Reckon.Proofs.EndOfInput
import Reckon.Proofs.Locality
import Mathlib.Data.List.Infix

/-!
# Sources that break off

A source may deliver some bytes and then fail whenever it is asked for more. The lexer does not take
such a failure for the end of anything: a step that does not have to look past the last glyph that
is delivered is the same whatever comes after this glyph, and one that does fails. So the tokens of
a source that breaks off are the first tokens of every text that begins with its bytes, and it has
no others, even if the lexer is asked again after it has failed.

## Main definitions

* `Lexer.Outlasts` — a lexer that goes on with more glyphs where another one fails.
* `Lexer.Starved` — a lexer that has failed.

## Main statements

* `Scan.read_append_of_rest` — a step does not depend on what it has not looked at.
* `Lexer.Outlasts.advance` — the step of a lexer that breaks off fails or is that of one that goes
  on.
* `Lexer.tokens_of_broken` — the tokens of a source that breaks off.
-/

namespace Reckon

/-! ### Steps and what follows them -/

/-- A gap does not depend on what follows the glyph that it ends at. Only after a slash is one more
glyph looked at. -/
theorem Gap.read_append_of_rest {part : Part} {gs gap rest : List Glyph} {g : Glyph} {closed : Bool}
    (h : read part gs = ⟨gap, g :: rest, closed⟩) (hg : g.is '/' → rest ≠ []) (more : List Glyph) :
    read part (gs ++ more) = ⟨gap, g :: (rest ++ more), closed⟩ := by
  fun_induction read part gs generalizing gap
  case case1 => cases h
  case case3 g' hw =>
    obtain ⟨rfl, hrest, rfl⟩ := Gap.mk.inj h
    obtain ⟨rfl, rfl⟩ := List.cons.inj hrest
    have hslash : g'.is '/' = false := Bool.eq_false_iff.2 fun h => hg h rfl
    cases more with
    | nil => simp [read, hw]
    | cons m more => simp [read, hw, hslash]
  case case6 g' hw h' gs hline hblock =>
    obtain ⟨rfl, hrest, rfl⟩ := Gap.mk.inj h
    obtain ⟨rfl, rfl⟩ := List.cons.inj hrest
    rw [List.cons_append, List.cons_append, read.eq_def]
    simp only [hw, hline, hblock, Bool.false_eq_true, if_false]
  case case7 | case10 =>
    rename_i he
    obtain ⟨rfl, hrest, rfl⟩ := Gap.mk.inj h
    obtain ⟨rfl, rfl⟩ := List.cons.inj hrest
    rw [List.cons_append, read.eq_def]
    simp only [he, if_true]
  case case11 =>
    obtain ⟨gap, rfl, hread⟩ := cons_eq h
    cases hread
  -- In all other cases one glyph or two are skipped, and nothing else is looked at.
  case case2 | case8 | case9 =>
    rename_i ih
    obtain ⟨gap, rfl, hread⟩ := cons_eq h
    rw [List.cons_append, read.eq_def]
    simp only [*, Bool.false_eq_true, if_true, if_false, ih hread]
    rfl
  case case4 | case5 | case12 =>
    rename_i ih
    obtain ⟨_, rfl, hnext⟩ := cons_eq h
    obtain ⟨gap, rfl, hread⟩ := cons_eq hnext
    rw [List.cons_append, List.cons_append, read.eq_def]
    simp only [*, Bool.false_eq_true, if_true, if_false, ih hread]
    rfl
  case case13 g' he h' gs hclose ih =>
    obtain ⟨gap, rfl, hread⟩ := cons_eq h
    have hmore := ih hread
    rw [List.cons_append] at hmore
    rw [List.cons_append, List.cons_append, read.eq_def]
    simp only [he, hclose, Bool.false_eq_true, if_false, hmore]
    rfl

/-- A number does not depend on what follows if two glyphs are left of what it is read from. -/
theorem NumberTail.read_append_of_rest {kind : Token.Kind} {gs : List Glyph}
    (h : 2 ≤ (read kind gs).rest.length) (more : List Glyph) :
    read kind (gs ++ more) = { read kind gs with rest := (read kind gs).rest ++ more } := by
  -- Two glyphs are left, so that there are two at every place that is looked at on the way.
  have hmany {kind : Token.Kind} {gs : List Glyph} (h : 2 ≤ (read kind gs).rest.length) :
      ∃ g gs', gs = g :: gs' := by
    have hall := congrArg List.length (glyphs_append_rest kind gs)
    rw [List.length_append] at hall
    exact List.exists_cons_of_length_pos (by omega)
  fun_induction read kind gs
  case case1 => cases h
  case case2 kind g gs hg ih =>
    obtain ⟨g', gs, rfl⟩ := hmany h
    have hmore := ih h
    rw [List.cons_append] at hmore
    rw [nextIs_cons] at hg
    rw [List.cons_append, List.cons_append, read.eq_def]
    simp only [nextIs_cons, hg, if_true, hmore]
    rfl
  case case3 g gs hg hpoint ih =>
    obtain ⟨hdigit, hunder⟩ := Glyph.of_point hpoint
    rw [List.cons_append, read.eq_def]
    simp only [hdigit, hunder, hpoint, Bool.false_and, Bool.false_or, Bool.false_eq_true, if_true,
      if_false, ih h]
    rfl
  case case6 kind g hpoint hk hg hmark =>
    simp [nextIs] at hmark
  case case7 kind g hpoint hk h' gs hsign hg hmark ih =>
    rw [nextIs_cons] at hg hmark
    rw [List.cons_append, List.cons_append, read.eq_def]
    simp only [nextIs_cons, hg, hpoint, hmark, hk, Bool.false_eq_true, if_true, if_false, ih h]
    simp only [hsign, if_true]
    rfl
  case case8 kind g hpoint hk h' gs hsign hg hmark ih =>
    have hmore := ih h
    rw [List.cons_append] at hmore
    rw [nextIs_cons] at hg hmark
    rw [List.cons_append, List.cons_append, read.eq_def]
    simp only [nextIs_cons, hg, hpoint, hmark, hk, Bool.false_eq_true, if_true, if_false]
    simp only [hsign, Bool.false_eq_true, if_false, hmore]
    rfl
  all_goals
    rename_i g gs _ _ _
    cases gs with
    | nil => simp at h
    | cons g' gs =>
      simp only [nextIs_cons] at *
      rw [List.cons_append, List.cons_append, read.eq_def]
      simp only [nextIs_cons, *, Bool.false_eq_true, if_true, if_false]

namespace Lexeme

variable (pipes : Bool) {g : Glyph} {gs : List Glyph}

/-- Every lexeme at the end of the glyphs is looked past. -/
theorem length_rest_lt_looked_nil (g : Glyph) :
    (read pipes g []).rest.length < (read pipes g []).looked := by
  unfold read
  split_ifs <;> simp [number, NumberTail.read, name, bracket, symbol]

theorem looked_le_two (g : Glyph) (gs : List Glyph) : (read pipes g gs).looked ≤ 2 := by
  unfold read
  split_ifs
  · exact Nat.le_refl 2
  · exact Nat.le_succ 1
  · exact Nat.le_succ 1
  · exact Nat.le_refl 2
  · unfold symbol
    split
    · split_ifs <;> simp
    · simp

theorem kind_of_outcome {e : Error} (h : (read pipes g gs).outcome = .error e) :
    e.kind = .lexical := by
  unfold read at h
  split_ifs at h
  · simp only [number] at h
    split at h <;> cases h <;> rfl
  · cases h
  · cases h
  · cases h
    rfl
  · unfold symbol at h
    split at h
    · split_ifs at h
    · cases h

/-- A minus sign and a point are told from a number by the glyph after them. -/
theorem beginsNumber_append_of_rest (hne : gs ≠ [])
    (htail : g.is '-' → nextIs (·.is '.') gs → gs.tail ≠ []) (more : List Glyph) :
    beginsNumber g (gs ++ more) = beginsNumber g gs := by
  obtain ⟨h, gs, rfl⟩ := List.exists_cons_of_ne_nil hne
  cases hminus : g.is '-' with
  | false => simp only [beginsNumber, hminus, List.cons_append, nextIs_cons, Bool.false_and]
  | true =>
    cases hpoint : h.is '.' with
    | false => simp only [beginsNumber, List.cons_append, nextIs_cons, hpoint, Bool.false_and]
    | true =>
      obtain ⟨h', gs, rfl⟩ := List.exists_cons_of_ne_nil (htail hminus hpoint)
      simp only [beginsNumber, List.cons_append, nextIs_cons, List.tail_cons]

theorem isBracket_append_of_rest (hne : gs ≠ []) (more : List Glyph) :
    isBracket pipes g (gs ++ more) = isBracket pipes g gs := by
  obtain ⟨h, gs, rfl⟩ := List.exists_cons_of_ne_nil hne
  rfl

theorem number_append_of_rest (h : 2 ≤ (number g gs).rest.length) (more : List Glyph) :
    number g (gs ++ more) = { number g gs with rest := (number g gs).rest ++ more } := by
  have htail := NumberTail.read_append_of_rest h more
  have hplace : ((number g gs).rest ++ more).head? = (number g gs).rest.head? := by
    rw [List.head?_append_of_ne_nil]
    exact List.ne_nil_of_length_pos (Nat.lt_of_lt_of_le Nat.zero_lt_two h)
  simp only [number] at hplace ⊢
  simp only [htail, hplace]

theorem name_append_of_rest (h : (name g gs).rest ≠ []) (more : List Glyph) :
    name g (gs ++ more) = { name g gs with rest := (name g gs).rest ++ more } := by
  have hdrop : (gs ++ more).dropWhile isNamePart = gs.dropWhile isNamePart ++ more := by
    rw [List.dropWhile_append, if_neg]
    simpa [name] using h
  have htake : (gs ++ more).takeWhile isNamePart = gs.takeWhile isNamePart := by
    rw [List.takeWhile_append, if_neg]
    intro hall
    have hlength := congrArg List.length (gs.takeWhile_append_dropWhile (p := isNamePart))
    rw [List.length_append, hall] at hlength
    exact h (List.length_eq_zero_iff.1 (Nat.add_eq_left.1 hlength))
  simp only [name, hdrop, htake]

/-- A lexeme does not depend on glyphs that have not been looked at for it. -/
theorem read_append_of_rest (h : (read pipes g gs).looked ≤ (read pipes g gs).rest.length)
    (more : List Glyph) :
    read pipes g (gs ++ more) =
      { read pipes g gs with rest := (read pipes g gs).rest ++ more } := by
  have hne : gs ≠ [] := by
    rintro rfl
    exact Nat.not_lt_of_le h (length_rest_lt_looked_nil pipes g)
  have hbegins : beginsNumber g (gs ++ more) = beginsNumber g gs := by
    refine beginsNumber_append_of_rest hne (fun hminus hpoint htail => ?_) more
    -- Otherwise the lexeme is a minus sign, and more is looked at than the point behind it.
    obtain ⟨⟨c, q⟩, gs, rfl⟩ := List.exists_cons_of_ne_nil hne
    obtain rfl : gs = [] := htail
    obtain rfl : c = '.' := Glyph.char_of_is hpoint
    rcases g with ⟨c, p⟩
    obtain rfl : c = '-' := Glyph.char_of_is hminus
    have hsymbol : read pipes ⟨'-', p⟩ [⟨'.', q⟩] = symbol ⟨'-', p⟩ [⟨'.', q⟩] := by
      cases pipes <;> rfl
    rw [hsymbol] at h
    exact absurd (show 2 ≤ 1 from h) (by decide)
  rw [read, hbegins, isBracket_append_of_rest pipes hne]
  unfold read at h ⊢
  split_ifs at h ⊢
  · exact number_append_of_rest h more
  · exact name_append_of_rest (List.ne_nil_of_length_pos h) more
  · rfl
  · rfl
  · obtain ⟨g', gs, rfl⟩ := List.exists_cons_of_ne_nil hne
    simp only [symbol, List.cons_append]
    split_ifs <;> rfl

end Lexeme

/-- A gap that is left open is left so by an end mark. -/
theorem Gap.isEnd_of_open {part : Part} {gs gap rest : List Glyph} {g : Glyph}
    (h : read part gs = ⟨gap, g :: rest, false⟩) : g.isEnd := by
  fun_induction read part gs generalizing gap
  case case1 | case3 | case6 | case7 => cases h
  case case10 g' gs he =>
    obtain ⟨-, hrest, -⟩ := Gap.mk.inj h
    obtain ⟨rfl, -⟩ := List.cons.inj hrest
    exact he
  case case4 | case5 | case12 =>
    rename_i ih
    obtain ⟨_, rfl, hnext⟩ := cons_eq h
    obtain ⟨_, rfl, hread⟩ := cons_eq hnext
    exact ih hread
  all_goals
    rename_i ih
    obtain ⟨_, rfl, hread⟩ := cons_eq h
    exact ih hread

namespace Scan

variable (pipes : Bool) (last : Position) {gs : List Glyph}

theorem looked_le_two (gs : List Glyph) : (read pipes last gs).looked ≤ 2 := by
  unfold read
  dsimp only
  split
  · split
    · exact Nat.le_succ 1
    · split
      · exact Nat.le_succ 1
      · exact Lexeme.looked_le_two pipes _ _
  · exact Nat.le_succ 1

theorem kind_of_outcome {e : Error} (h : (read pipes last gs).outcome = .error e) :
    e.kind = .lexical := by
  unfold read at h
  dsimp only at h
  split at h
  · split at h
    · cases h
    · next g rest _ =>
      split at h
      · cases h
      · cases ho : (Lexeme.read pipes g rest).outcome with
        | error e' =>
          simp only [ho, Except.map] at h
          cases h
          exact Lexeme.kind_of_outcome pipes ho
        | ok t => simp [ho, Except.map] at h
  · cases h
    rfl

/-- A step does not depend on glyphs that it has not looked at. -/
theorem read_append_of_rest {last : Position}
    (h : (read pipes last gs).looked ≤ (read pipes last gs).rest.length) (last' : Position)
    (more : List Glyph) :
    read pipes last' (gs ++ more) =
      { read pipes last gs with rest := (read pipes last gs).rest ++ more } := by
  rcases hgap : Gap.read .blank gs with ⟨gap, _ | ⟨g, rest⟩, closed⟩
  · cases closed <;> simp [read, hgap] at h
  cases he : g.isEnd with
  | true =>
    have hslash : g.is '/' = false := by simp [Glyph.is, he]
    have hmore := Gap.read_append_of_rest hgap (by simp [hslash]) more
    cases closed <;> simp [read, hgap, hmore, he]
  | false =>
    obtain rfl : closed = true := by
      by_contra hopen
      rw [Bool.eq_false_iff.2 hopen] at hgap
      rw [Gap.isEnd_of_open hgap] at he
      cases he
    have hlooked : (Lexeme.read pipes g rest).looked ≤ (Lexeme.read pipes g rest).rest.length := by
      simpa [read, hgap, he] using h
    have hne : rest ≠ [] := by
      rintro rfl
      exact Nat.not_lt_of_le hlooked (Lexeme.length_rest_lt_looked_nil pipes g)
    have hmore := Gap.read_append_of_rest hgap (fun _ => hne) more
    simp [read, hgap, hmore, he, Lexeme.read_append_of_rest pipes hlooked]

/-- Where one glyph is left at most, a token is looked past. -/
theorem length_rest_lt_looked {t : Token} (hlength : gs.length ≤ 1)
    (h : (read pipes last gs).outcome = .ok (some t)) :
    (read pipes last gs).rest.length < (read pipes last gs).looked := by
  obtain ⟨gap, g, rest, hgap, he, -, -⟩ := exists_of_token h
  obtain rfl : rest = [] := by
    have hall := congrArg List.length (Gap.glyphs_append_rest .blank gs)
    rw [hgap, List.length_append, List.length_cons] at hall
    exact List.length_eq_zero_iff.1 (by omega)
  simpa [read, hgap, he] using Lexeme.length_rest_lt_looked_nil pipes g

end Scan

/-! ### Lexers that go on where others fail -/

namespace Lexer

/-- The source of `l'` goes on with `more` where that of `l` reports a failure, and neither has been
asked for anything there. -/
structure Outlasts (reason : String) (more : List Glyph) (l l' : Lexer) : Prop where
  failure : l.failure = some reason
  pipeBrackets : l'.pipeBrackets = l.pipeBrackets
  ahead : l'.ahead = l.ahead ++ more
  fetched : l'.fetched = l.fetched
  fetched_le : l.fetched ≤ l.ahead.length
  /-- What `l` has ahead reaches to where `more` begins. -/
  last : (more.head?.map (·.position.before)).getD l'.last = l.last

namespace Outlasts

variable {reason : String} {more : List Glyph} {l l' : Lexer}

theorem position_eq (h : Outlasts reason more l l') : l'.position = l.position := by
  unfold position
  rw [h.ahead, h.fetched]
  obtain hlt | heq := Nat.lt_or_eq_of_le h.fetched_le
  · rw [List.getElem?_append_left hlt, List.getElem?_eq_getElem hlt]
  · rw [heq, List.getElem?_append_right (Nat.le_refl _), Nat.sub_self,
      List.getElem?_eq_none (Nat.le_refl _), ← h.last]
    cases more <;> rfl

/-- A step that does not fail for want of glyphs is the same for both lexers. -/
theorem advance (h : Outlasts reason more l l') :
    l.outcome l.next = .error (.unreadable reason) ∨
      l'.outcome l'.next = l.outcome l.next ∧
        Outlasts reason more (l.advance l.next) (l'.advance l'.next) := by
  by_cases hlooked : l.next.rest.length < l.next.looked
  · refine .inl ?_
    rw [outcome, h.failure]
    exact if_pos hlooked
  have hnext : l'.next = { l.next with rest := l.next.rest ++ more } := by
    rw [next, h.pipeBrackets, h.ahead]
    exact Scan.read_append_of_rest _ (Nat.not_lt.1 hlooked) _ _
  have htaken : (l.next.gap ++ l.next.lexeme ++ l.next.rest).length = l.ahead.length :=
    congrArg List.length (Scan.glyphs_append_rest l.pipeBrackets l.last l.ahead)
  rw [List.length_append, List.length_append] at htaken
  refine .inr ⟨?_, ?_⟩
  · rw [hnext, outcome, outcome, h.failure]
    dsimp only
    rw [if_neg hlooked]
    split
    · rw [if_neg]
      rw [List.length_append]
      omega
    · rfl
  · rw [hnext]
    exact {
      failure := h.failure
      pipeBrackets := h.pipeBrackets
      ahead := rfl
      fetched := by simp only [Lexer.advance, h.fetched]
      fetched_le := by
        have hle := h.fetched_le
        simp only [Lexer.advance]
        omega
      last := h.last }

/-- The tokens of a source that breaks off are the first ones of a source that goes on, and all of
them if the last step does not fail for want of glyphs. -/
theorem tokens (h : Outlasts reason more l l') :
    l.tokens.ahead <+: l'.tokens.ahead ∧
      (l.tokens.ending = .error (.unreadable reason) ∨ l'.tokens = l.tokens) := by
  induction hts : l.tokens.ahead generalizing l l' with
  | nil =>
    refine ⟨List.nil_prefix, ?_⟩
    rw [tokens_eq l] at hts ⊢
    obtain hfail | ⟨hout, hafter⟩ := h.advance
    · rw [hfail]
      exact .inl rfl
    · rw [tokens_eq l', hout]
      cases ho : l.outcome l.next with
      | error e => exact .inr rfl
      | ok t? =>
        cases t? with
        | none => exact .inr (by simp only [hafter.position_eq])
        | some t => rw [ho] at hts; cases hts
  | cons t ts ih =>
    rw [tokens_eq l] at hts ⊢
    obtain hfail | ⟨hout, hafter⟩ := h.advance
    · rw [hfail] at hts
      cases hts
    · rw [tokens_eq l', hout]
      cases ho : l.outcome l.next with
      | error e => rw [ho] at hts; cases hts
      | ok t? =>
        cases t? with
        | none => rw [ho] at hts; cases hts
        | some t' =>
          simp only [ho, List.cons.injEq] at hts
          obtain ⟨rfl, hts⟩ := hts
          obtain ⟨hfirst, hall⟩ := ih hafter hts
          exact ⟨List.cons_prefix_cons.2 ⟨rfl, hfirst⟩, hall.imp_right fun heq => by rw [heq]⟩

end Outlasts

end Lexer

namespace Source

theorem glyphsFrom_append (p : Position) (bytes more : List UInt8) :
    glyphsFrom p (bytes ++ more) =
      glyphsFrom p bytes ++ glyphsFrom (bytes.foldl (fun p b => p.after (.ofUInt8 b)) p) more := by
  induction bytes generalizing p with
  | nil => rfl
  | cons b bytes ih => simp only [List.cons_append, glyphsFrom, ih, List.foldl_cons]

end Source

namespace Lexer

/-- A source that goes on with more bytes where another one fails. -/
theorem outlasts_ofSource (settings : Settings) (bytes more : List UInt8) (reason : String)
    (failure : Option String) :
    ∃ glyphs, Outlasts reason glyphs (ofSource settings { bytes, failure := some reason })
      (ofSource settings { bytes := bytes ++ more, failure }) := by
  refine ⟨_, rfl, rfl, Source.glyphsFrom_append _ bytes more, rfl, Nat.zero_le _, ?_⟩
  cases more with
  | nil => exact congrArg (List.foldl _ _) (List.append_nil bytes)
  | cons b more => rfl

/-! ### Lexers that have failed -/

/-- The source has failed, and one glyph at most is left of it, with which no token can end. -/
structure Starved (l : Lexer) : Prop where
  broken : l.failure ≠ none
  length_le : l.ahead.length ≤ 1

variable {l l' : Lexer}

theorem starved_of_fetch {e : Error} (h : fetch l = .error e l') (he : e.kind = .input) :
    l'.Starved := by
  unfold fetch at h
  dsimp only at h
  split at h
  · cases h
  next e ho =>
  obtain ⟨rfl, rfl⟩ := EStateM.Result.error.inj h
  have hlexical (h : l.next.outcome = .error e) : False := by
    rw [Scan.kind_of_outcome _ _ h] at he
    cases he
  unfold outcome at ho
  split at ho
  · next reason hl =>
    split at ho
    · next hlt =>
      have htwo := Scan.looked_le_two l.pipeBrackets l.last l.ahead
      exact ⟨by simp [advance, hl], by simp only [advance]; omega⟩
    · exact (hlexical ho).elim
  · exact (hlexical ho).elim

namespace Starved

variable (h : l.Starved)
include h

theorem asked : l.asked.Starved := by
  rw [asked_eq]
  have hall : (l.next.gap ++ l.next.lexeme ++ l.next.rest).length = l.ahead.length :=
    congrArg List.length (Scan.glyphs_append_rest l.pipeBrackets l.last l.ahead)
  rw [List.length_append] at hall
  have hle := h.length_le
  exact ⟨h.broken, by simp only [advance]; omega⟩

theorem after (n : Nat) : (l.after n).Starved := by
  induction n generalizing l with
  | zero => exact h
  | succ n ih => exact ih h.asked

theorem fetch_ne_token (t : Token) (l' : Lexer) : fetch l ≠ .ok (some t) l' := by
  intro hfetch
  obtain ⟨reason, hl⟩ := Option.ne_none_iff_exists'.1 h.broken
  unfold fetch outcome at hfetch
  simp only [hl] at hfetch
  split at hfetch
  · next token? ho =>
    obtain ⟨rfl, -⟩ := EStateM.Result.ok.inj hfetch
    split at ho
    · cases ho
    · next hlooked => exact hlooked (Scan.length_rest_lt_looked _ _ h.length_le ho)
  · cases hfetch

end Starved

/-- A source that breaks off after some bytes has the first tokens of every source that begins with
these bytes, whether that one comes to an end or breaks off as well, and unless it is for the
failure that there are no more, it has the same tokens and the same ending. Whoever asks on after
the failure gets no token, however often. -/
theorem tokens_of_broken (settings : Settings) (bytes : List UInt8) (reason : String) :
    let broken := ofSource settings { bytes, failure := some reason }
    (∀ (more : List UInt8) (failure : Option String),
      let whole := ofSource settings { bytes := bytes ++ more, failure }
      broken.tokens.ahead <+: whole.tokens.ahead ∧
        (broken.tokens.ending = .error (.unreadable reason) ∨ whole.tokens = broken.tokens)) ∧
      ∀ n e l, fetch (broken.after n) = .error e l → e.kind = .input →
        ∀ m t l', fetch (l.after m) ≠ .ok (some t) l' := by
  intro broken
  refine ⟨fun more failure => ?_, fun n e l hfetch he m t l' => ?_⟩
  · obtain ⟨glyphs, houtlasts⟩ := outlasts_ofSource settings bytes more reason failure
    exact houtlasts.tokens
  · exact ((starved_of_fetch hfetch he).after m).fetch_ne_token t l'

/-- A number that the source breaks off in is not taken for one that ends there. -/
theorem tokens_of_broken_number :
    let bytes := (Source.ofString "a 12").bytes
    let more := (Source.ofString "3 b").bytes
    let broken := ofSource {} { bytes, failure := some "disk on fire" }
    let whole := ofSource {} { bytes := bytes ++ more }
    broken.tokens.ahead.map (·.source) = ["a"] ∧
      whole.tokens.ahead.map (·.source) = ["a", "123", "b"] ∧
        broken.tokens.ahead <+: whole.tokens.ahead ∧
          ∃ l, fetch (broken.after 1) = .error (.unreadable "disk on fire") l ∧
            ∀ m t l', fetch (l.after m) ≠ .ok (some t) l' := by
  intro bytes more broken whole
  obtain ⟨hwhole, hafter⟩ := tokens_of_broken {} bytes "disk on fire"
  have hout : (broken.after 1).outcome (broken.after 1).next =
      .error (.unreadable "disk on fire") := by decide +kernel
  have hfetch : fetch (broken.after 1) =
      .error (.unreadable "disk on fire") ((broken.after 1).advance (broken.after 1).next) := by
    simp only [fetch, hout]
  exact ⟨by decide +kernel, by decide +kernel, (hwhole more none).1, _, hfetch,
    hafter 1 _ _ hfetch rfl⟩

end Lexer

end Reckon
