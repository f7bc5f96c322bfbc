import Reckon.Proofs.Spelling

/-!
# Stepping

One step of a lexer by loops: it skips a gap, starting over after each comment, decides by at most
three glyphs what begins, and reads it. The step ends, and comes to the step that is read at once.
How far it looks is part of what it comes to, since a look past the last glyph of a broken source
fails.

## Main definitions

* `Scanning.given` — what a scanner comes to that reads one step.

## Main statements

* `Scanning.comesTo_lexeme` — what begins at a glyph is read.
* `Scanning.comesTo_token` — a step ends.
-/

namespace Reckon.Scanning

open Walk

variable {s : Scanning} {β : Type} {g h : Glyph}
variable {gs rest : List Glyph} {looked : Nat} {o : Except Error β}

/-! ### What begins at a glyph -/

/-- The looks that tell whether a number begins succeed: there is a second glyph, and a third one
if the first two are a minus sign and a point. -/
structure Within (s : Scanning) (g : Glyph) (gs : List Glyph) : Prop where
  second : ∀ e, s.edge = .error e → g.isDigit = false → gs ≠ []
  third : ∀ e, s.edge = .error e → ∀ h, gs = [h] → (g.is '-' && h.is '.') = false

theorem isDigit_of_not_beginsNumber (h : Lexeme.beginsNumber g gs = false) : g.isDigit = false := by
  rw [Lexeme.beginsNumber, Bool.or_assoc, Bool.or_eq_false_iff] at h
  exact h.1

/-- Past a point there is a third look. -/
theorem comesTo_third_bind {f : Bool → Scanner β}
    (hh : item s.edge (g :: gs) 1 = .ok h) (hpoint : h.is '.')
    (hlooked : gs = [h] → rest.length < looked)
    (hf : (∀ e, s.edge = .error e → gs.length ≠ 1) →
      ComesTo (f (nextIs Glyph.isDigit gs.tail)) (g :: gs) (settle s.edge looked rest o)) :
    ComesTo ((do return (← peek s.edge 2).isDigit) >>= f) (g :: gs)
      (settle s.edge looked rest o) := by
  rw [bind_assoc]
  refine comesTo_peek_bind 2 (fun hlength => hlooked ?_) fun h' hh' => ?_
  · obtain hh | ⟨-, rfl⟩ := item_eq hh
    · cases gs with
      | nil => cases hh
      | cons h₁ hs =>
        obtain rfl : h₁ = h := Option.some.inj hh
        obtain rfl : hs = [] := List.eq_nil_of_length_eq_zero (by simpa using hlength)
        rfl
    · cases hpoint
  · have hnext : nextIs Glyph.isDigit gs.tail = h'.isDigit := by
      rw [← List.drop_one]
      exact nextIs_of_item (fun _ => rfl) hh'
    rw [hnext] at hf
    refine hf fun e he hlength => ?_
    have hlonger := length_of_item hh' he
    rw [List.length_cons, hlength] at hlonger
    exact absurd hlonger (Nat.lt_irrefl 2)

theorem comesTo_atNumber_bind {f : Bool → Scanner β}
    (hsecond : gs = [] → g.isDigit = false → rest.length < looked)
    (hthird : ∀ h, gs = [h] → g.is '-' → h.is '.' → rest.length < looked)
    (hf : Within s g gs → ComesTo (f (Lexeme.beginsNumber g gs)) (g :: gs)
      (settle s.edge looked rest o)) :
    ComesTo (s.atNumber >>= f) (g :: gs) (settle s.edge looked rest o) := by
  rw [atNumber, bind_assoc]
  refine comesTo_front_bind ?_
  cases hdigit : g.isDigit with
  | true =>
    have hbegins : Lexeme.beginsNumber g gs = true := by simp [Lexeme.beginsNumber, hdigit]
    have hminus : g.is '-' = false := Glyph.is_eq_false fun h => by
      rw [Glyph.isDigit, h] at hdigit
      cases hdigit
    rw [hbegins] at hf
    exact hf ⟨fun _ _ h => absurd (hdigit.symm.trans h) (by decide),
      fun _ _ _ _ => by rw [hminus, Bool.false_and]⟩
  | false =>
  rw [if_neg Bool.false_ne_true, bind_assoc]
  refine comesTo_peek_bind 1 (fun h => hsecond (by simpa using h) hdigit) fun h hh => ?_
  have hnonempty (e : Error) (he : s.edge = .error e) (_ : g.isDigit = false) : gs ≠ [] := by
    rintro rfl
    exact absurd (length_of_item hh he) (Nat.lt_irrefl 1)
  have hnext : nextIs Glyph.isDigit gs = h.isDigit :=
    nextIs_of_item (n := 0) (fun _ => rfl) hh
  have hpoint : nextIs (·.is '.') gs = h.is '.' :=
    nextIs_of_item (n := 0) (fun _ => rfl) hh
  rw [Lexeme.beginsNumber, hdigit, hnext, hpoint, Bool.false_or] at hf
  cases hminus : g.is '-' with
  | false =>
    rw [hminus, Bool.false_and, Bool.false_or] at hf
    exact hf ⟨hnonempty, fun _ _ _ _ => by rw [hminus, Bool.false_and]⟩
  | true =>
  have hdot : g.is '.' = false := Glyph.is_eq_false (by rw [Glyph.char_of_is hminus]; decide)
  rw [hminus, hdot, Bool.true_and, Bool.false_and, Bool.or_false] at hf
  rw [if_pos rfl]
  cases hp : h.is '.' with
  | false =>
    have hwithin : Within s g gs := by
      refine ⟨hnonempty, fun e he h' hgs => ?_⟩
      subst hgs
      obtain rfl : h' = h := Except.ok.inj hh
      rw [hp, Bool.and_false]
    rw [hp, Bool.false_and, Bool.or_false] at hf
    cases hd : h.isDigit with
    | true =>
      rw [hd] at hf
      exact hf hwithin
    | false =>
      rw [hd] at hf
      exact hf hwithin
  | true =>
    have hd : h.isDigit = false := (Glyph.of_point hp).1
    rw [hp, hd, Bool.false_or, Bool.true_and] at hf
    rw [hd, if_neg Bool.false_ne_true, if_pos rfl]
    refine comesTo_third_bind hh hp (fun hgs => hthird h hgs hminus hp) fun hlonger => ?_
    exact hf ⟨hnonempty, fun e he h' hgs => absurd (congrArg List.length hgs) (hlonger e he)⟩

/-- Two characters are looked for, the second one only if the first is there. -/
theorem comesTo_spells_bind {a b : Char} {f : Bool → Scanner β}
    (hlooked : gs = [] → g.is a → rest.length < looked)
    (hf : ComesTo (f (g.is a && nextIs (·.is b) gs)) (g :: gs) (settle s.edge looked rest o)) :
    ComesTo (s.spells 0 [a, b] >>= f) (g :: gs) (settle s.edge looked rest o) := by
  rw [spells, bind_assoc]
  refine comesTo_front_bind ?_
  cases ha : g.is a with
  | false =>
    rw [ha, Bool.false_and] at hf
    exact hf
  | true =>
    rw [if_pos rfl, spells, bind_assoc]
    refine comesTo_peek_bind 1 (fun h => hlooked (by simpa using h) ha) fun h hh => ?_
    have hnext : nextIs (·.is b) gs = h.is b := nextIs_of_item (n := 0) (fun _ => rfl) hh
    rw [ha, Bool.true_and, hnext] at hf
    cases hb : h.is b with
    | false =>
      rw [hb] at hf
      exact hf
    | true =>
      rw [hb] at hf
      rw [if_pos rfl, spells]
      exact hf

theorem comesTo_atBracket_bind {f : Bool → Scanner β}
    (hlooked : gs = [] → g.is '|' → rest.length < looked)
    (hf : ComesTo (f (Lexeme.isBracket s.pipes g gs)) (g :: gs) (settle s.edge looked rest o)) :
    ComesTo (s.atBracket false >>= f) (g :: gs) (settle s.edge looked rest o) := by
  rw [atBracket, bind_assoc]
  refine comesTo_front_bind ?_
  rw [Lexeme.isBracket] at hf
  cases hany : g.isAny ['(', '[', '{', '}', ']', ')'] with
  | true =>
    rw [hany, Bool.true_or] at hf
    exact hf
  | false =>
    rw [hany, Bool.false_or] at hf
    rw [if_neg Bool.false_ne_true, Bool.not_false, Bool.true_and]
    cases hpipe : s.pipes && g.is '|' with
    | false =>
      rw [hpipe, Bool.false_and] at hf
      exact hf
    | true =>
      rw [hpipe, Bool.true_and] at hf
      rw [if_pos rfl, bind_assoc]
      refine comesTo_peek_bind 1 (fun h => ?_) fun h hh => ?_
      · exact hlooked (by simpa using h) (Bool.and_eq_true_iff.1 hpipe).2
      · have hnext : nextIs (·.is '|') gs = h.is '|' :=
          nextIs_of_item (n := 0) (fun _ => rfl) hh
        rw [hnext] at hf
        exact hf

/-- Where a gap ends, no comment begins. -/
theorem not_comment {c : Char} (hends : Gap.Ends g gs) (hc : c = '/' ∨ c = '*') :
    (g.is '/' && nextIs (·.is c) gs) = false := by
  cases hslash : g.is '/' with
  | false => rfl
  | true =>
    have hnone := hends.2 hslash
    cases gs with
    | nil => rfl
    | cons h gs =>
      rw [nextIs_cons, Bool.or_eq_false_iff] at hnone
      obtain rfl | rfl := hc
      · exact hnone.1
      · exact hnone.2

/-- Once nothing else begins, a symbol does, unless at a control character. -/
theorem comesTo_atSymbol_bind {f : Bool → Scanner β}
    (he : g.isEnd = false) (hends : Gap.Ends g gs) (hnumber : Lexeme.beginsNumber g gs = false)
    (hletter : g.isLetter = false) (hbracket : Lexeme.isBracket s.pipes g gs = false)
    (hsecond : gs = [] → rest.length < looked)
    (hthird : ∀ h, gs = [h] → g.is '-' → h.is '.' → rest.length < looked)
    (hf : ComesTo (f !g.isControl) (g :: gs) (settle s.edge looked rest o)) :
    ComesTo (s.atSymbol >>= f) (g :: gs) (settle s.edge looked rest o) := by
  have hdigit : g.isDigit = false := isDigit_of_not_beginsNumber hnumber
  have hany : g.isAny ['(', '[', '{', '}', ']', ')'] = false := by
    rw [Lexeme.isBracket, Bool.or_eq_false_iff] at hbracket
    exact hbracket.1
  rw [atSymbol, bind_assoc]
  refine comesTo_front_bind ?_
  simp only [he, hdigit, hletter, hends.1, Bool.false_or]
  cases hcontrol : g.isControl with
  | true =>
    rw [hcontrol] at hf
    exact hf
  | false =>
    rw [hcontrol] at hf
    rw [if_neg Bool.false_ne_true, bind_assoc, atBracket, bind_assoc]
    refine comesTo_front_bind ?_
    rw [hany, if_neg Bool.false_ne_true, Bool.not_true, Bool.false_and,
      Bool.false_and, if_neg Bool.false_ne_true, pure_bind, if_neg Bool.false_ne_true, bind_assoc]
    refine comesTo_spells_bind (fun h _ => hsecond h) ?_
    rw [not_comment hends (.inr rfl), if_neg Bool.false_ne_true, bind_assoc]
    refine comesTo_spells_bind (fun h _ => hsecond h) ?_
    rw [not_comment hends (.inl rfl), if_neg Bool.false_ne_true, bind_assoc]
    refine comesTo_atNumber_bind (fun h _ => hsecond h) hthird fun _ => ?_
    rw [hnumber, if_neg Bool.false_ne_true, bind_assoc]
    refine comesTo_front_bind ?_
    rw [hletter]
    exact hf

/-- A look past the last glyph is beyond what any lexeme leaves, unless the lexeme is a number. -/
theorem looked_of_single (hdigit : g.isDigit = false) :
    (Lexeme.read s.pipes g []).rest.length < (Lexeme.read s.pipes g []).looked := by
  have hnumber : Lexeme.beginsNumber g [] = false := by
    simp [Lexeme.beginsNumber, hdigit, nextIs]
  rw [Lexeme.read, hnumber, if_neg Bool.false_ne_true]
  split
  · exact Nat.one_pos
  split
  · exact Nat.one_pos
  split
  · exact Nat.one_lt_two
  · exact Nat.one_pos

theorem looked_of_minus (hminus : g.is '-') (hpoint : h.is '.') :
    (Lexeme.read s.pipes g [h]).rest.length < (Lexeme.read s.pipes g [h]).looked := by
  obtain ⟨g, p⟩ := g
  obtain ⟨h, q⟩ := h
  obtain rfl : g = '-' := Glyph.char_of_is hminus
  obtain rfl : h = '.' := Glyph.char_of_is hpoint
  cases s.pipes <;> exact Nat.one_lt_two

theorem comesTo_lexeme (he : g.isEnd = false) (hends : Gap.Ends g gs) :
    ComesTo s.lexeme (g :: gs) (settle s.edge (Lexeme.read s.pipes g gs).looked
      (Lexeme.read s.pipes g gs).rest (Lexeme.read s.pipes g gs).outcome) := by
  have hsecond (hgs : gs = []) (hdigit : g.isDigit = false) :
      (Lexeme.read s.pipes g gs).rest.length < (Lexeme.read s.pipes g gs).looked := by
    rw [hgs]
    exact looked_of_single hdigit
  have hthird (h : Glyph) (hgs : gs = [h]) (hminus : g.is '-') (hpoint : h.is '.') :
      (Lexeme.read s.pipes g gs).rest.length < (Lexeme.read s.pipes g gs).looked := by
    rw [hgs]
    exact looked_of_minus hminus hpoint
  rw [lexeme]
  refine comesTo_atNumber_bind hsecond hthird fun hwithin => ?_
  cases hnumber : Lexeme.beginsNumber g gs with
  | true =>
    rw [Lexeme.read, hnumber, if_pos rfl, if_pos rfl]
    exact comesTo_number hnumber
  | false =>
  have hdigit : g.isDigit = false := isDigit_of_not_beginsNumber hnumber
  rw [if_neg Bool.false_ne_true]
  refine comesTo_front_bind ?_
  cases hletter : g.isLetter with
  | true =>
    rw [Lexeme.read, hnumber, hletter, if_neg Bool.false_ne_true, if_pos rfl, if_pos rfl]
    exact comesTo_name g gs
  | false =>
  rw [if_neg Bool.false_ne_true]
  refine comesTo_atBracket_bind (fun hgs _ => hsecond hgs hdigit) ?_
  cases hbracket : Lexeme.isBracket s.pipes g gs with
  | true =>
    rw [Lexeme.read, hnumber, hletter, hbracket, if_neg Bool.false_ne_true,
      if_neg Bool.false_ne_true, if_pos rfl, if_pos rfl]
    refine comesTo_consume_bind (comesTo_settled (comesTo_pure _ _) fun e he' => ?_)
    exact List.length_pos_iff.2 (hwithin.second e he' hdigit)
  | false =>
  rw [if_neg Bool.false_ne_true]
  refine comesTo_atSymbol_bind he hends hnumber hletter hbracket
    (fun hgs => hsecond hgs hdigit) hthird ?_
  cases hcontrol : g.isControl with
  | false =>
    rw [Lexeme.read, hnumber, hletter, hbracket, hcontrol]
    exact comesTo_symbol g gs hwithin.third
  | true =>
    refine comesTo_front_bind ?_
    rw [Lexeme.read, hnumber, hletter, hbracket, hcontrol]
    refine comesTo_failed fun e he' => ?_
    exact Nat.succ_le_succ (List.length_pos_iff.2 (hwithin.second e he' hdigit))

/-! ### Gaps and tokens -/

/-- The step of which a gap has been skipped already. -/
def resume (s : Scanning) (gap : Gap) : Scan :=
  if gap.closed then
    match gap.rest with
    | [] => ⟨gap.glyphs, [], [], .ok none, 1⟩
    | g :: gs =>
      if g.isEnd then
        ⟨gap.glyphs, [], g :: gs, .ok none, 1⟩
      else
        let lexeme := Lexeme.read s.pipes g gs
        ⟨gap.glyphs, lexeme.glyphs, lexeme.rest, lexeme.outcome.map some, lexeme.looked⟩
  else
    let place := (gap.rest.head?.map (·.position)).getD s.last
    ⟨gap.glyphs, [], gap.rest, .error (.unclosedComment place), 1⟩

/-- What a scanner comes to that reads one step. -/
def given (s : Scanning) (step : Scan) : Except Error (Option Token × List Glyph) :=
  settle s.edge step.looked step.rest step.outcome

theorem given_cons (g : Glyph) (gap : Gap) :
    s.given (s.resume (gap.cons g)) = s.given (s.resume gap) := by
  obtain ⟨glyphs, rest, closed⟩ := gap
  cases closed with
  | false => rfl
  | true =>
    cases rest with
    | nil => rfl
    | cons h rest =>
      simp only [resume, Gap.closed_cons, Gap.rest_cons, if_true]
      split <;> rfl

/-- Skips what is left of a part of a gap. -/
def skip (s : Scanning) : Gap.Part → Scanner Unit
  | .blank => pure ()
  | .lineComment => s.skipLine
  | .blockComment => s.skipBlock

theorem comesTo_skipBlanks_bind {f : Unit → Scanner β} {r : Except Error (β × List Glyph)}
    (hw : g.isWhitespace = false) (hf : ComesTo (f ()) (g :: gs) r) :
    ComesTo (s.skipBlanks >>= f) (g :: gs) r := by
  rw [skipBlanks, bind_assoc]
  refine comesTo_front_bind ?_
  rw [hw]
  exact hf

theorem comesTo_takes_bind {a b : Char} {f : Bool → Scanner β} {r : Except Error (β × List Glyph)}
    (ha : g.is a) (hb : h.is b) (hf : ComesTo (f true) gs r) :
    ComesTo (s.takes [a, b] >>= f) (g :: h :: gs) r := by
  have htakes : ComesTo (s.takes [a, b]) (g :: h :: gs) (.ok (true, gs)) := by
    rw [takes, spells, bind_assoc]
    refine comesTo_front_bind ?_
    rw [ha, if_pos rfl, spells, bind_assoc]
    refine (comesTo_peek s.edge (g :: h :: gs) 1).bind_of_ok ?_
    rw [hb, if_pos rfl, spells, pure_bind, if_pos rfl]
    exact .ok rfl ⟨[g, h], rfl⟩
  exact htakes.bind_of_ok hf

theorem comesTo_not_takes_bind {a b : Char} {f : Bool → Scanner β}
    (hnot : (g.is a && nextIs (·.is b) gs) = false)
    (hlooked : gs = [] → g.is a → rest.length < looked)
    (hf : ComesTo (f false) (g :: gs) (settle s.edge looked rest o)) :
    ComesTo (s.takes [a, b] >>= f) (g :: gs) (settle s.edge looked rest o) := by
  rw [takes, bind_assoc]
  refine comesTo_spells_bind hlooked ?_
  rw [hnot]
  exact hf

theorem comesTo_token_nil :
    ComesTo s.token [] (s.given (s.resume ⟨[], [], true⟩)) := by
  rw [token, skipBlanks, bind_assoc]
  refine comesTo_front_nil_bind Nat.one_pos fun hwhole => ?_
  refine comesTo_front_nil_bind Nat.one_pos fun hwhole => ?_
  exact comesTo_settled (comesTo_pure _ _) fun e he => absurd he (hwhole e)

theorem comesTo_token_of_isEnd (he : g.isEnd) :
    ComesTo s.token (g :: gs) (s.given (s.resume ⟨[], g :: gs, true⟩)) := by
  have hw : g.isWhitespace = false := by
    cases hw : g.isWhitespace with
    | false => rfl
    | true => exact absurd he (by rw [Glyph.isEnd_of_isWhitespace hw]; decide)
  rw [token]
  refine comesTo_skipBlanks_bind hw (comesTo_front_bind ?_)
  simp only [resume, he, if_true]
  exact comesTo_settled (comesTo_pure _ _) fun _ _ => Nat.succ_pos _

/-- At a glyph at which a gap ends there is a token, an error or the end. -/
theorem comesTo_token_of_ends (hends : Gap.Ends g gs) :
    ComesTo s.token (g :: gs) (s.given (s.resume ⟨[], g :: gs, true⟩)) := by
  cases he : g.isEnd with
  | true => exact comesTo_token_of_isEnd he
  | false =>
    have hresume : s.resume ⟨[], g :: gs, true⟩ =
        ⟨[], (Lexeme.read s.pipes g gs).glyphs, (Lexeme.read s.pipes g gs).rest,
          (Lexeme.read s.pipes g gs).outcome.map some, (Lexeme.read s.pipes g gs).looked⟩ := by
      simp [resume, he]
    have hlooked (hgs : gs = []) (hslash : g.is '/') :
        (Lexeme.read s.pipes g gs).rest.length < (Lexeme.read s.pipes g gs).looked := by
      rw [hgs]
      exact looked_of_single (by rw [Glyph.isDigit, Glyph.char_of_is hslash]; rfl)
    rw [token, hresume, given]
    refine comesTo_skipBlanks_bind hends.1 (comesTo_front_bind ?_)
    rw [he]
    refine comesTo_not_takes_bind (not_comment hends (.inl rfl)) hlooked ?_
    refine comesTo_not_takes_bind (not_comment hends (.inr rfl)) hlooked ?_
    rw [settle_map]
    exact (comesTo_lexeme he hends).bind_pure some

section Gaps

variable {r : Except Error (Option Token × List Glyph)}

theorem comesTo_token_of_blank (hw : g.isWhitespace) (h : ComesTo s.token gs r) :
    ComesTo s.token (g :: gs) r := by
  rw [token] at h ⊢
  rw [skipBlanks, bind_assoc]
  refine comesTo_front_bind ?_
  rw [if_pos hw, bind_assoc]
  exact comesTo_skip_bind h

theorem comesTo_token_of_line (hg : g.is '/') (hh : h.is '/')
    (hs : ComesTo (s.skipLine >>= fun _ => s.token) gs r) :
    ComesTo s.token (g :: h :: gs) r := by
  have hw : g.isWhitespace = false := by rw [Glyph.isWhitespace, Glyph.char_of_is hg]; rfl
  rw [token]
  refine comesTo_skipBlanks_bind hw (comesTo_front_bind ?_)
  rw [Glyph.isEnd_of_is hg]
  exact comesTo_takes_bind hg hh hs

theorem comesTo_skipLine_token (hstop : g.isEnd || g.isNewline)
    (h : ComesTo s.token (g :: gs) r) :
    ComesTo (s.skipLine >>= fun _ => s.token) (g :: gs) r := by
  rw [skipLine, bind_assoc]
  refine comesTo_front_bind ?_
  rw [if_pos hstop]
  exact h

end Gaps

theorem comesTo_token_of_block {o : Except Error (Option Token)}
    (hg : g.is '/') (hh : h.is '*')
    (hs : ComesTo (s.skipBlock >>= fun _ => s.token) gs (settle s.edge looked rest o)) :
    ComesTo s.token (g :: h :: gs) (settle s.edge looked rest o) := by
  have hw : g.isWhitespace = false := by rw [Glyph.isWhitespace, Glyph.char_of_is hg]; rfl
  have hline : h.is '/' = false := Glyph.is_eq_false (by rw [Glyph.char_of_is hh]; decide)
  rw [token]
  refine comesTo_skipBlanks_bind hw (comesTo_front_bind ?_)
  rw [Glyph.isEnd_of_is hg]
  refine comesTo_not_takes_bind (by rw [nextIs_cons, hline, Bool.and_false])
    (fun h => absurd h (List.cons_ne_nil _ _)) ?_
  exact comesTo_takes_bind hg hh hs

theorem comesTo_skip_token (part : Gap.Part) (gs : List Glyph) :
    ComesTo (s.skip part >>= fun _ => s.token) gs
      (s.given (s.resume (Gap.read part gs))) := by
  fun_induction Gap.read part gs
  case case1 part =>
    cases part with
    | blank => exact comesTo_token_nil
    | lineComment =>
      rw [skip, skipLine, bind_assoc]
      refine comesTo_front_nil_bind Nat.one_pos fun hwhole => ?_
      exact comesTo_token_nil
    | blockComment =>
      rw [skip, skipBlock, bind_assoc]
      refine comesTo_front_nil_bind Nat.one_pos fun hwhole => ?_
      exact comesTo_failed_bind fun e he => absurd he (hwhole e)
  case case2 g gs hw ih =>
    rw [given_cons]
    exact comesTo_token_of_blank hw ih
  case case3 g hw =>
    exact comesTo_token_of_ends ⟨by simpa using hw, fun _ => rfl⟩
  case case4 g hw h hs hopen ih =>
    obtain ⟨hg, hh⟩ := Bool.and_eq_true_iff.1 hopen
    rw [given_cons, given_cons]
    exact comesTo_token_of_line hg hh ih
  case case5 g hw h hs hline hopen ih =>
    obtain ⟨hg, hh⟩ := Bool.and_eq_true_iff.1 hopen
    rw [given_cons, given_cons]
    exact comesTo_token_of_block hg hh ih
  case case6 g hw h hs hline hblock =>
    refine comesTo_token_of_ends ⟨by simpa using hw, fun hg => ?_⟩
    rw [hg, Bool.true_and] at hline hblock
    rw [nextIs_cons, Bool.or_eq_false_iff]
    exact ⟨by simpa using hline, by simpa using hblock⟩
  case case7 g gs he =>
    exact comesTo_skipLine_token (by simp [he]) (comesTo_token_of_isEnd he)
  case case8 g gs he hnewline ih =>
    have hw : g.isWhitespace := by
      rw [Glyph.isWhitespace, show g.char = '\n' by simpa [Glyph.isNewline] using hnewline]
      rfl
    rw [given_cons]
    exact comesTo_skipLine_token (by simp [hnewline]) (comesTo_token_of_blank hw ih)
  case case9 g gs he hnewline ih =>
    rw [given_cons, skip, skipLine, bind_assoc]
    refine comesTo_front_bind ?_
    rw [if_neg (by simp [he, hnewline]), bind_assoc]
    exact comesTo_skip_bind ih
  case case10 g gs he =>
    rw [skip, skipBlock, bind_assoc]
    refine comesTo_front_bind ?_
    rw [if_pos he]
    exact comesTo_failed_bind fun _ _ => Nat.succ_pos _
  case case11 g he ih =>
    rw [given_cons, skip, skipBlock, bind_assoc]
    refine comesTo_front_bind ?_
    rw [if_neg he, bind_assoc]
    refine comesTo_not_takes_bind (Bool.and_false _) ?_ ?_
    · intro _ _
      rw [Gap.read]
      exact Nat.one_pos
    · rw [if_neg Bool.false_ne_true, bind_assoc]
      exact comesTo_skip_bind ih
  case case12 g he h hs hclose ih =>
    obtain ⟨hg, hh⟩ := Bool.and_eq_true_iff.1 hclose
    rw [given_cons, given_cons, skip, skipBlock, bind_assoc]
    refine comesTo_front_bind ?_
    rw [if_neg he, bind_assoc]
    exact comesTo_takes_bind hg hh ih
  case case13 g he h hs hclose ih =>
    rw [given_cons, skip, skipBlock, bind_assoc]
    refine comesTo_front_bind ?_
    rw [if_neg he, bind_assoc]
    refine comesTo_not_takes_bind (Bool.eq_false_iff.2 hclose)
      (fun h => absurd h (List.cons_ne_nil _ _)) ?_
    rw [if_neg Bool.false_ne_true, bind_assoc]
    exact comesTo_skip_bind ih

theorem comesTo_token (s : Scanning) (gs : List Glyph) :
    ComesTo s.token gs (s.given (Scan.read s.pipes s.last gs)) :=
  comesTo_skip_token .blank gs

end Reckon.Scanning
