import Reckon.Proofs.Placement

/-!
# Tokens and what follows them

How a token is cut off a text depends on its own glyphs, on the gap before it and on at most two of
the glyphs after it. A minus sign ends every token before it, except that a number takes it in after
an exponent mark; so does a blank, and so does the end of the text. Therefore a text that
ends with a token of its own before a minus sign has the same tokens before a blank and before the
end.

## Main definitions

* `Stops` — a text that is empty or begins with a blank or a minus sign.

## Main statements

* `Cuts.of_minus` — tokens that end before a minus sign end there whatever stops them.
* `Tokenized.append_iff` — the tokens of a text before a minus sign and of the text after it.
-/

namespace Reckon

/-! ### Stops -/

/-- A blank or a minus sign: no token that has begun before takes it in, except a number with an
exponent. -/
def Glyph.IsStop (g : Glyph) : Prop := g.char = '-' ∨ g.char = ' '

namespace Glyph.IsStop

variable {g : Glyph} (h : g.IsStop)
include h

theorem is_eq_false {c : Char} (hminus : c ≠ '-') (hblank : c ≠ ' ') : g.is c = false := by
  refine Glyph.is_eq_false ?_
  rintro rfl
  exact h.elim hminus hblank

theorem isDigit : g.isDigit = false := by
  rw [Glyph.isDigit]
  rcases h with h | h <;> rw [h] <;> rfl

theorem isExponentMark : g.isExponentMark = false := by
  simp [Glyph.isExponentMark, isAny, h.is_eq_false]

theorem isNamePart : Lexeme.isNamePart g = false := by
  have hletter : g.isLetter = false := by
    rw [isLetter]
    rcases h with h | h <;> rw [h] <;> rfl
  simp [Lexeme.isNamePart, h.isDigit, hletter, h.is_eq_false]

end Glyph.IsStop

/-- A text that is empty or begins with a blank or a minus sign. -/
def Stops (gs : List Glyph) : Prop := ∀ g ∈ gs.head?, g.IsStop

theorem Stops.nextIs {gs : List Glyph} (h : Stops gs) {p : Glyph → Bool}
    (hp : ∀ g, g.IsStop → p g = false) : Reckon.nextIs p gs = false := by
  cases gs with
  | nil => rfl
  | cons g gs => exact hp g (h g rfl)

theorem Glyph.char_of_is {g : Glyph} {c : Char} (h : g.is c) : g.char = c := by
  rw [is, Bool.and_eq_true, beq_iff_eq] at h
  exact h.2

/-- What a point is not. -/
theorem Glyph.of_point {g : Glyph} (h : g.is '.') : g.isDigit = false ∧ g.is '_' = false := by
  rcases g with ⟨c, p⟩
  obtain rfl : c = '.' := char_of_is h
  exact ⟨rfl, rfl⟩

/-- What is seen of a stop is seen of `m` as well. -/
theorem Stops.nextIs_append {m : Glyph} {mid X Y : List Glyph} (hY : Stops Y) {p : Glyph → Bool}
    (hp : ∀ y : Glyph, y.IsStop → p y → p m) (h : Reckon.nextIs p (mid ++ Y)) :
    Reckon.nextIs p (mid ++ m :: X) := by
  cases mid with
  | nil =>
    cases Y with
    | nil => cases h
    | cons y Y => exact hp y (hY y rfl) h
  | cons g mid => exact h

/-- What is not seen of a stop depends only on what is in front of it. -/
theorem Stops.nextIs_append_eq {Y Z : List Glyph} (hY : Stops Y) (hZ : Stops Z) {p : Glyph → Bool}
    (hp : ∀ y : Glyph, y.IsStop → p y = false) (gs : List Glyph) :
    Reckon.nextIs p (gs ++ Y) = Reckon.nextIs p (gs ++ Z) := by
  cases gs with
  | nil => rw [List.nil_append, List.nil_append, hY.nextIs hp, hZ.nextIs hp]
  | cons g gs => rfl

theorem stops_nil : Stops [] := by
  rintro y ⟨⟩

theorem stops_cons {m : Glyph} (hm : m.char = '-') (X : List Glyph) : Stops (m :: X) := by
  rintro y ⟨⟩
  exact .inl hm

/-! ### Gaps -/

namespace Gap

variable {g : Glyph} {gs gap rest : List Glyph}

theorem glyphs_ne_nil_of_closed (gs : List Glyph) (h : (read .blockComment gs).closed) :
    (read .blockComment gs).glyphs ≠ [] := by
  intro hnil
  rw [read.eq_def] at h hnil
  revert h hnil
  rcases gs with _ | ⟨g, _ | ⟨h, gs⟩⟩
  · simp
  · dsimp only
    split <;> simp
  · dsimp only
    split <;> [simp; split <;> simp]

theorem cons_eq {x : Gap} {closed : Bool} (h : x.cons g = ⟨gap, rest, closed⟩) :
    ∃ gap', gap = g :: gap' ∧ x = ⟨gap', rest, closed⟩ := by
  obtain ⟨glyphs, _, _⟩ := x
  obtain ⟨rfl, rfl, rfl⟩ := Gap.mk.inj h
  exact ⟨glyphs, rfl, rfl⟩

/-- A gap that ends at a glyph is skipped whatever follows it, and then a gap in what follows. -/
theorem read_append {part : Part} (h : read part gs = ⟨gap, g :: rest, true⟩)
    (hg : g.isEnd = false) (rest' : List Glyph) :
    read part (gap ++ rest') = ⟨gap ++ (read .blank rest').glyphs, (read .blank rest').rest,
      (read .blank rest').closed⟩ := by
  fun_induction read part gs generalizing gap
  case case1 => cases h
  case case2 g' gs hw ih =>
    obtain ⟨gap, rfl, hread⟩ := cons_eq h
    rw [List.cons_append, read_of_isWhitespace hw, ih hread]
    rfl
  case case3 | case6 =>
    obtain ⟨rfl, -, -⟩ := Gap.mk.inj h
    rfl
  case case4 g' hw h' gs hopen ih =>
    obtain ⟨_, rfl, hnext⟩ := cons_eq h
    obtain ⟨gap, rfl, hread⟩ := cons_eq hnext
    rw [List.cons_append, List.cons_append, read.eq_def]
    simp only [hw, hopen, Bool.false_eq_true, if_true, if_false, ih hread]
    rfl
  case case5 g' hw h' gs hline hopen ih =>
    obtain ⟨_, rfl, hnext⟩ := cons_eq h
    obtain ⟨gap, rfl, hread⟩ := cons_eq hnext
    rw [List.cons_append, List.cons_append, read.eq_def]
    simp only [hw, hline, hopen, Bool.false_eq_true, if_true, if_false, ih hread]
    rfl
  case case7 g' gs he =>
    obtain ⟨-, hrest, -⟩ := Gap.mk.inj h
    obtain ⟨rfl, -⟩ := List.cons.inj hrest
    simp [he] at hg
  case case8 g' gs he hn ih | case9 g' gs he hn ih =>
    obtain ⟨gap, rfl, hread⟩ := cons_eq h
    rw [List.cons_append, read.eq_def]
    simp only [he, hn, Bool.false_eq_true, if_true, if_false, ih hread]
    rfl
  case case10 => cases h
  case case11 =>
    obtain ⟨gap, rfl, hread⟩ := cons_eq h
    cases hread
  case case12 g' he h' gs hclose ih =>
    obtain ⟨_, rfl, hnext⟩ := cons_eq h
    obtain ⟨gap, rfl, hread⟩ := cons_eq hnext
    rw [List.cons_append, List.cons_append, read.eq_def]
    simp only [he, hclose, Bool.false_eq_true, if_true, if_false, ih hread]
    rfl
  case case13 g' he h' gs hclose ih =>
    obtain ⟨gap, rfl, hread⟩ := cons_eq h
    -- The comment goes on, so that the glyph that was looked at belongs to it as well.
    have hne : gap ≠ [] := by
      have hglyphs := glyphs_ne_nil_of_closed (h' :: gs) (by rw [hread])
      rwa [hread] at hglyphs
    obtain ⟨h'', gap, rfl⟩ := List.exists_cons_of_ne_nil hne
    have hall := glyphs_append_rest .blockComment (h' :: gs)
    rw [hread] at hall
    obtain ⟨rfl, -⟩ := List.cons.inj hall
    have hmore := ih hread
    rw [List.cons_append] at hmore
    rw [List.cons_append, List.cons_append, read.eq_def]
    simp only [he, hclose, Bool.false_eq_true, if_false, hmore]
    rfl

theorem ends_of_read (h : read .blank gs = ⟨gap, g :: rest, true⟩) (hg : g.isEnd = false) :
    Ends g rest := by
  have hgs := glyphs_append_rest .blank gs
  have happend := read_append h hg (g :: rest)
  rw [h] at hgs
  rw [hgs, h] at happend
  obtain ⟨hnil, -, -⟩ := Gap.mk.inj happend
  have hnil : (read .blank (g :: rest)).glyphs = [] := by simpa using hnil
  have hw : g.isWhitespace = false := by
    cases hw : g.isWhitespace with
    | false => rfl
    | true => simp [read_of_isWhitespace hw] at hnil
  refine ⟨hw, fun hslash => ?_⟩
  cases rest with
  | nil => rfl
  | cons h' rest =>
    rw [read.eq_def] at hnil
    cases hl : h'.is '/' with
    | true => simp [hw, hslash, hl] at hnil
    | false =>
      cases hb : h'.is '*' with
      | true => simp [hw, hslash, hl, hb] at hnil
      | false => rw [nextIs_cons, hl, hb]; rfl

/-- A gap that ends at a glyph before a minus sign ends there also if a blank or nothing follows. -/
theorem read_of_minus {m : Glyph} {X Y : List Glyph} (hm : m.char = '-')
    (h : read .blank gs = ⟨gap, g :: (rest ++ m :: X), true⟩) (hg : g.isEnd = false)
    (hY : Stops Y) :
    read .blank (gap ++ g :: (rest ++ Y)) = ⟨gap, g :: (rest ++ Y), true⟩ := by
  have hX := stops_cons hm X
  have hends : Ends g (rest ++ Y) := by
    obtain ⟨hw, hslash⟩ := ends_of_read h hg
    refine ⟨hw, fun h => ?_⟩
    rw [← hslash h]
    exact hY.nextIs_append_eq hX (fun y hy => by simp [hy.is_eq_false]) rest
  rw [read_append h hg, read_of_ends hends, List.append_nil]

end Gap

/-! ### Numbers -/

namespace NumberTail

variable {g m : Glyph} {kind k : Token.Kind} {gs taken rest rest' mid X Y : List Glyph}
variable {fault : Option NumberFault}

theorem cons_eq {x : NumberTail} (h : x.cons g = ⟨taken, rest, k, fault⟩) :
    ∃ taken', taken = g :: taken' ∧ x = ⟨taken', rest, k, fault⟩ := by
  obtain ⟨glyphs, _, _, _⟩ := x
  obtain ⟨rfl, rfl, rfl, rfl⟩ := NumberTail.mk.inj h
  exact ⟨glyphs, rfl, rfl⟩

theorem exists_cons_of_isDigit (hg : g.isDigit)
    (h : read kind (g :: gs) = ⟨taken, rest, k, fault⟩) :
    ∃ taken', taken = g :: taken' := by
  rw [read.eq_def] at h
  simp only [hg, Bool.true_or, if_true] at h
  obtain ⟨taken', rfl, -⟩ := cons_eq h
  exact ⟨taken', rfl⟩

theorem nextIs_taken (hd : nextIs Glyph.isDigit gs) (h : read kind gs = ⟨taken, rest, k, fault⟩) :
    nextIs Glyph.isDigit (taken ++ rest') := by
  cases gs with
  | nil => cases hd
  | cons g gs =>
    obtain ⟨taken', rfl⟩ := exists_cons_of_isDigit hd h
    exact hd

/-- A number is taken whatever follows it, if it has come to its end there. -/
theorem read_append (h : read kind gs = ⟨taken, rest, k, none⟩)
    (hs : read k rest' = ⟨[], rest', k, none⟩) :
    read kind (taken ++ rest') = ⟨taken, rest', k, none⟩ := by
  fun_induction read kind gs generalizing taken
  case case1 kind =>
    obtain ⟨rfl, -, rfl, -⟩ := NumberTail.mk.inj h
    exact hs
  case case2 kind g gs hg ih =>
    obtain ⟨taken, rfl, hread⟩ := cons_eq h
    -- The digit that is looked at after an underscore is taken as well.
    have hg' : g.isDigit || (g.is '_' && nextIs Glyph.isDigit (taken ++ rest')) := by
      simp only [Bool.or_eq_true, Bool.and_eq_true] at hg ⊢
      exact hg.imp_right fun hg => ⟨hg.1, nextIs_taken hg.2 hread⟩
    rw [List.cons_append, read.eq_def]
    simp only [hg', if_true, ih hread]
    rfl
  case case3 g gs hg hpoint ih =>
    obtain ⟨taken, rfl, hread⟩ := cons_eq h
    obtain ⟨hdigit, hunder⟩ := Glyph.of_point hpoint
    rw [List.cons_append, read.eq_def]
    simp only [hdigit, hunder, hpoint, Bool.false_and, Bool.false_or, Bool.false_eq_true, if_true,
      if_false, ih hread]
    rfl
  case case4 => cases h
  case case5 => cases h
  case case6 kind g hpoint hk hg hmark =>
    simp [nextIs] at hmark
  case case7 kind g hpoint hk h' gs hsign hg hmark ih =>
    obtain ⟨_, rfl, hnext⟩ := cons_eq h
    obtain ⟨taken, rfl, hread⟩ := cons_eq hnext
    rw [nextIs_cons] at hg hmark
    rw [List.cons_append, List.cons_append, read.eq_def]
    simp only [nextIs_cons, hg, hpoint, hmark, hk, Bool.false_eq_true, if_true, if_false, ih hread]
    simp only [hsign, if_true]
    rfl
  case case8 kind g hpoint hk h' gs hsign hg hmark ih =>
    obtain ⟨_, rfl, hread⟩ := cons_eq h
    have hdigit : h'.isDigit := by
      rw [Bool.and_eq_true] at hmark
      simpa [nextIs, hsign] using hmark.2
    obtain ⟨taken, rfl⟩ := exists_cons_of_isDigit hdigit hread
    have hmore := ih hread
    rw [nextIs_cons] at hg hmark
    rw [List.cons_append] at hmore
    rw [List.cons_append, List.cons_append, read.eq_def]
    simp only [nextIs_cons, hg, hpoint, hmark, hk, Bool.false_eq_true, if_true, if_false]
    simp only [hsign, Bool.false_eq_true, if_false, hmore]
    rfl
  case case9 kind g gs hg hpoint hmark =>
    obtain ⟨rfl, -, rfl, -⟩ := NumberTail.mk.inj h
    exact hs

/-- A number stops at glyphs that do not carry it on. -/
theorem read_eq_nil_iff : read kind (g :: gs) = ⟨[], g :: gs, kind, none⟩ ↔
    ¬(g.isDigit || (g.is '_' && nextIs Glyph.isDigit gs)) ∧ ¬g.is '.' ∧
      ¬(g.isExponentMark && nextIs (fun h => h.isDigit || h.isSign) gs) := by
  refine ⟨fun h => ?_, fun ⟨hg, hpoint, hmark⟩ => ?_⟩
  · rw [read.eq_def] at h
    dsimp only at h
    split at h
    · cases h
    · next hg =>
      split at h
      · split at h <;> cases h
      · next hpoint =>
        split at h
        · split at h
          · cases h
          · next hmark _ =>
            cases gs with
            | nil => simp [nextIs] at hmark
            | cons h' gs =>
              dsimp only at h
              split at h <;> cases h
        · next hmark => exact ⟨hg, hpoint, hmark⟩
  · rw [read.eq_def]
    simp only [hg, hpoint, hmark, Bool.false_eq_true, if_false]

/-- Where a number has stopped, it stops again. -/
theorem read_rest (h : read kind gs = ⟨taken, rest, k, none⟩) :
    read k rest = ⟨[], rest, k, none⟩ := by
  fun_induction read kind gs generalizing taken
  case case1 kind =>
    obtain ⟨-, rfl, rfl, -⟩ := NumberTail.mk.inj h
    rw [read]
  case case4 | case5 => cases h
  case case6 kind g hpoint hk hg hmark =>
    simp [nextIs] at hmark
  case case7 kind g hpoint hk h' gs hsign hg hmark ih =>
    obtain ⟨_, rfl, hnext⟩ := cons_eq h
    obtain ⟨_, rfl, hread⟩ := cons_eq hnext
    exact ih hread
  case case9 kind g gs hg hpoint hmark =>
    obtain ⟨-, rfl, rfl, -⟩ := NumberTail.mk.inj h
    exact read_eq_nil_iff.2 ⟨hg, hpoint, hmark⟩
  all_goals
    rename_i ih
    obtain ⟨_, rfl, hread⟩ := cons_eq h
    exact ih hread

/-- A number goes on neither with a blank nor with a minus sign. -/
theorem read_of_stops (hY : Stops Y) (kind : Token.Kind) :
    read kind Y = ⟨[], Y, kind, none⟩ := by
  cases Y with
  | nil => rw [read]
  | cons y Y =>
    have hy := hY y rfl
    exact read_eq_nil_iff.2 (by simp [hy.isDigit, hy.is_eq_false, hy.isExponentMark])

/-- A number that stops before a minus sign stops before a blank and before the end as well. -/
theorem read_of_minus (hm : m.char = '-') (h : read kind gs = ⟨taken, mid ++ m :: X, k, none⟩)
    (hY : Stops Y) : read kind (taken ++ (mid ++ Y)) = ⟨taken, mid ++ Y, k, none⟩ := by
  refine read_append h ?_
  have hrest := read_rest h
  cases mid with
  | nil => exact read_of_stops hY k
  | cons g mid =>
    obtain ⟨hg, hpoint, hmark⟩ := read_eq_nil_iff.1 hrest
    refine read_eq_nil_iff.2 ⟨fun h => hg ?_, hpoint, fun h => hmark ?_⟩
    · simp only [Bool.or_eq_true, Bool.and_eq_true] at h ⊢
      refine h.imp_right fun h => ⟨h.1, hY.nextIs_append (fun y hy hd => ?_) h.2⟩
      rw [hy.isDigit] at hd
      cases hd
    · simp only [Bool.and_eq_true] at h ⊢
      refine ⟨h.1, hY.nextIs_append (fun _ _ _ => ?_) h.2⟩
      simp [Glyph.isSign, Glyph.isAny, Glyph.is, Glyph.isEnd, Glyph.endMark, hm]

end NumberTail

/-! ### Lexemes -/

namespace Lexeme

variable {pipes : Bool} {g m : Glyph} {gs mid X Y Z : List Glyph} {t : Token}

theorem beginsNumber_append (hY : Stops Y) (hZ : Stops Z) :
    beginsNumber g (gs ++ Y) = beginsNumber g (gs ++ Z) := by
  have hdigit := hY.nextIs_append_eq hZ (p := Glyph.isDigit) fun y hy => hy.isDigit
  cases gs with
  | nil =>
    have hpointY : nextIs (·.is '.') Y = false := hY.nextIs fun y hy =>
      hy.is_eq_false (by decide) (by decide)
    have hpointZ : nextIs (·.is '.') Z = false := hZ.nextIs fun y hy =>
      hy.is_eq_false (by decide) (by decide)
    have hd := hdigit []
    simp only [List.nil_append] at hd
    simp only [beginsNumber, List.nil_append, hd, hpointY, hpointZ, Bool.false_and]
  | cons h gs => simp only [beginsNumber, List.cons_append, nextIs_cons, List.tail_cons, hdigit gs]

theorem isBracket_append (hY : Stops Y) (hZ : Stops Z) :
    isBracket pipes g (gs ++ Y) = isBracket pipes g (gs ++ Z) := by
  have hpipe := hY.nextIs_append_eq hZ (p := (·.is '|')) fun y hy =>
    hy.is_eq_false (by decide) (by decide)
  simp only [isBracket, hpipe]

theorem takeWhile_append (hY : Stops Y) (gs : List Glyph) :
    (gs ++ Y).takeWhile isNamePart = gs.takeWhile isNamePart ∧
      (gs ++ Y).dropWhile isNamePart = gs.dropWhile isNamePart ++ Y := by
  induction gs with
  | nil =>
    cases Y with
    | nil => exact ⟨rfl, rfl⟩
    | cons y Y =>
      have hy : isNamePart y = false := (hY y rfl).isNamePart
      simp [hy]
  | cons g gs ih =>
    by_cases hg : isNamePart g
    · simp [hg, ih]
    · simp [hg]

theorem symbol_append (hY : Stops Y) (g : Glyph) (gs : List Glyph) :
    (symbol g (gs ++ Y)).outcome = (symbol g gs).outcome ∧
      (symbol g (gs ++ Y)).rest = (symbol g gs).rest ++ Y := by
  cases gs with
  | nil =>
    cases Y with
    | nil => exact ⟨rfl, rfl⟩
    | cons y Y =>
      have hpair : isPair g y = false := by
        rcases y with ⟨c, p⟩
        rcases hY _ rfl with hc | hc
        all_goals
          obtain rfl : c = _ := hc
          simp [isPair, Glyph.isAny, Glyph.is]
      simp [symbol, hpair]
  | cons h gs =>
    simp only [symbol, List.cons_append]
    split <;> exact ⟨rfl, rfl⟩

theorem number_of_minus (hm : m.char = '-') (ho : (number g (gs ++ m :: X)).outcome = .ok t)
    (hr : (number g (gs ++ m :: X)).rest = mid ++ m :: X) (hY : Stops Y) :
    (number g (gs ++ Y)).outcome = .ok t ∧ (number g (gs ++ Y)).rest = mid ++ Y := by
  simp only [number] at ho hr
  generalize hkind : (if g.is '.' then Token.Kind.decimal else .integer) = kind at ho hr
  have hall := NumberTail.glyphs_append_rest kind (gs ++ m :: X)
  rcases htail : NumberTail.read kind (gs ++ m :: X) with ⟨taken, rest, k, fault⟩
  rw [htail] at ho hr hall
  obtain rfl : rest = mid ++ m :: X := hr
  obtain rfl : gs = taken ++ mid := by
    simpa [← List.append_assoc] using hall.symm
  cases fault with
  | some fault => cases fault <;> cases ho
  | none =>
    have hread := NumberTail.read_of_minus hm htail hY
    simp only [number, hkind, List.append_assoc, hread]
    exact ⟨ho, trivial⟩

/-- A token that ends before a minus sign ends there also if a blank or nothing follows. -/
theorem read_of_minus (hm : m.char = '-') (ho : (read pipes g (gs ++ m :: X)).outcome = .ok t)
    (hr : (read pipes g (gs ++ m :: X)).rest = mid ++ m :: X) (hY : Stops Y) :
    (read pipes g (gs ++ Y)).outcome = .ok t ∧ (read pipes g (gs ++ Y)).rest = mid ++ Y := by
  -- What follows does not decide on the kind of the lexeme, so the kinds are gone through once.
  have hX := stops_cons hm X
  rw [read, beginsNumber_append hX hY, isBracket_append hX hY] at ho hr
  rw [read]
  split
  · next hb =>
    rw [if_pos hb] at ho hr
    exact number_of_minus hm ho hr hY
  next hb =>
  rw [if_neg hb] at ho hr
  split
  · next hl =>
    rw [if_pos hl] at ho hr
    simp only [name, takeWhile_append hX] at ho hr
    simp only [name, takeWhile_append hY]
    exact ⟨ho, by rw [List.append_cancel_right hr]⟩
  next hl =>
  rw [if_neg hl] at ho hr
  split
  · next hb =>
    rw [if_pos hb] at ho hr
    exact ⟨ho, by rw [← List.append_cancel_right hr]; rfl⟩
  next hb =>
  rw [if_neg hb] at ho hr
  split
  · next hc =>
    rw [if_pos hc] at ho
    cases ho
  next hc =>
  rw [if_neg hc] at ho hr
  rw [(symbol_append hX g gs).1] at ho
  rw [(symbol_append hX g gs).2] at hr
  obtain ⟨hout, hrest⟩ := symbol_append hY g gs
  exact ⟨hout.trans ho, hrest.trans (by rw [List.append_cancel_right hr])⟩

end Lexeme

/-! ### Steps -/

namespace Scan

variable {pipes : Bool} {last : Position} {g : Glyph} {gs gap rest : List Glyph} {t : Token}

/-- The step that skips a gap and goes on at a glyph. -/
theorem read_of_gap (pipes : Bool) (last : Position)
    (h : Gap.read .blank gs = ⟨gap, g :: rest, true⟩) (he : g.isEnd = false) :
    (read pipes last gs).outcome = (Lexeme.read pipes g rest).outcome.map some ∧
      (read pipes last gs).rest = (Lexeme.read pipes g rest).rest := by
  simp only [read, h, he, Bool.false_eq_true, if_true, if_false]
  exact ⟨trivial, trivial⟩

/-- A step that gives a token. -/
theorem exists_of_token (h : (read pipes last gs).outcome = .ok (some t)) :
    ∃ gap g rest, Gap.read .blank gs = ⟨gap, g :: rest, true⟩ ∧ g.isEnd = false ∧
      (Lexeme.read pipes g rest).outcome = .ok t ∧
        (read pipes last gs).rest = (Lexeme.read pipes g rest).rest := by
  rcases hgap : Gap.read .blank gs with ⟨gap, rest, closed⟩
  cases closed with
  | false => simp [read, hgap] at h
  | true =>
    cases rest with
    | nil => simp [read, hgap] at h
    | cons g rest =>
      cases he : g.isEnd with
      | true => simp [read, hgap, he] at h
      | false =>
        obtain ⟨hout, hrest⟩ := read_of_gap pipes last hgap he
        rw [hout] at h
        cases ho : (Lexeme.read pipes g rest).outcome with
        | error e => rw [ho] at h; cases h
        | ok t' =>
          rw [ho] at h
          obtain rfl := Option.some.inj (Except.ok.inj h)
          exact ⟨gap, g, rest, rfl, he, ho, hrest⟩

/-- A step that gives a token before a minus sign gives it also if a blank or nothing follows. -/
theorem read_of_minus {m : Glyph} {mid X Y : List Glyph} (hm : m.char = '-')
    (h : (read pipes last (gs ++ m :: X)).outcome = .ok (some t))
    (hr : (read pipes last (gs ++ m :: X)).rest = mid ++ m :: X) (hY : Stops Y) :
    (read pipes last (gs ++ Y)).outcome = .ok (some t) ∧
      (read pipes last (gs ++ Y)).rest = mid ++ Y := by
  obtain ⟨gap, g, after, hgap, he, hout, hrest⟩ := exists_of_token h
  obtain ⟨lexeme, rfl⟩ : ∃ lexeme, after = lexeme ++ mid ++ m :: X := by
    have hall := Lexeme.glyphs_append_rest pipes g after
    obtain ⟨g', lexeme, hlexeme⟩ := List.exists_cons_of_ne_nil (Lexeme.glyphs_ne_nil hout)
    rw [hlexeme, ← hrest, hr, List.cons_append, ← List.append_assoc] at hall
    exact ⟨lexeme, (List.cons.inj hall).2.symm⟩
  obtain rfl : gs = gap ++ g :: (lexeme ++ mid) := by
    have hall := Gap.glyphs_append_rest .blank (gs ++ m :: X)
    rw [hgap] at hall
    refine List.append_cancel_right (hall.symm.trans ?_)
    simp only [List.append_assoc, List.cons_append]
  have hgap' := Gap.read_of_minus hm hgap he hY
  obtain ⟨hout', hrest'⟩ := Lexeme.read_of_minus hm hout (hrest.symm.trans hr) hY
  rw [List.append_assoc, List.cons_append]
  obtain ⟨hstep, hleft⟩ := read_of_gap pipes last hgap' he
  rw [hout'] at hstep
  exact ⟨hstep, hleft.trans hrest'⟩

end Scan

namespace Cuts

variable {pipes : Bool} {last : Position} {m : Glyph} {gs mid rest X Y : List Glyph}
variable {ts : List Token}

/-- What tokens are cut off stands in front of what is left. -/
theorem exists_append (h : Cuts pipes last gs ts rest) : ∃ taken, gs = taken ++ rest := by
  induction h with
  | none => exact ⟨[], rfl⟩
  | @step gs _ _ _ _ _ ih =>
    obtain ⟨taken, ih⟩ := ih
    have hall := Scan.glyphs_append_rest pipes last gs
    rw [ih, ← List.append_assoc] at hall
    exact ⟨_, hall.symm⟩

/-- Tokens that are cut off before a minus sign are cut off also if a blank or nothing follows. -/
theorem of_minus (hm : m.char = '-') (h : Cuts pipes last (gs ++ m :: X) ts (mid ++ m :: X))
    (hY : Stops Y) : Cuts pipes last (gs ++ Y) ts (mid ++ Y) := by
  induction ts generalizing gs with
  | nil =>
    generalize hgs : gs ++ m :: X = all at h
    generalize hmid : mid ++ m :: X = left at h
    cases h
    rw [List.append_cancel_right (hgs.trans hmid.symm)]
    exact .none
  | cons t ts ih =>
    generalize hgs : gs ++ m :: X = all at h
    cases h with
    | step h hr =>
      subst hgs
      obtain ⟨taken, htaken⟩ := hr.exists_append
      rw [← List.append_assoc] at htaken
      obtain ⟨hstep, hleft⟩ := Scan.read_of_minus hm h htaken hY
      rw [htaken] at hr
      exact .step hstep (hleft ▸ ih hr)

end Cuts

/-! ### Texts before a minus sign -/

namespace Tokenized

variable {pipes : Bool} {m : Glyph} {gs mid D : List Glyph} {ts us : List Token} {u : Token}

/-- A gap in front of the glyphs makes no difference. -/
theorem gap_append_iff (hgap : Gap.read .blank (mid ++ [m]) = ⟨mid, [m], true⟩)
    (hm : m.isEnd = false) :
    Tokenized pipes (mid ++ D) ts ↔ Tokenized pipes D ts := by
  have hread := Gap.read_append hgap hm D
  have hscan : (Scan.read pipes default (mid ++ D)).outcome = (Scan.read pipes default D).outcome ∧
      (Scan.read pipes default (mid ++ D)).rest = (Scan.read pipes default D).rest := by
    simp only [Scan.read, hread]
    split
    · split
      · exact ⟨rfl, rfl⟩
      · split <;> exact ⟨rfl, rfl⟩
    · exact ⟨rfl, rfl⟩
  exact iff_of_scan hscan.1 hscan.2

/-- If a minus sign after some glyphs is one more token, there is nothing but a gap between their
tokens and the minus sign. -/
theorem gap_of_minus (hm : m.char = '-') (h : Tokenized pipes mid [])
    (hminus : Tokenized pipes (mid ++ [m]) [u]) :
    Gap.read .blank (mid ++ [m]) = ⟨mid, [m], true⟩ := by
  cases h with
  | ending hend =>
  cases hminus with
  | token htoken _ =>
  obtain ⟨gap, g, rest, hgap, he, hout, -⟩ := Scan.exists_of_token htoken
  have hall := Gap.glyphs_append_rest .blank (mid ++ [m])
  rw [hgap] at hall
  obtain rfl | ⟨rest, last, rfl⟩ := List.eq_nil_or_concat rest
  · obtain ⟨rfl, hg⟩ := List.append_inj' hall rfl
    obtain rfl := (List.cons.inj hg).1
    exact hgap
  · -- Otherwise a token would begin before the minus sign.
    exfalso
    rw [List.concat_eq_append, ← List.cons_append, ← List.append_assoc] at hall
    obtain ⟨rfl, hlast⟩ := List.append_inj' hall rfl
    obtain rfl := (List.cons.inj hlast).1
    rw [List.concat_eq_append] at hgap
    have hgap' := Gap.read_of_minus hm hgap he stops_nil
    rw [List.append_nil] at hgap'
    obtain ⟨hstep, -⟩ := Scan.read_of_gap pipes default hgap' he
    rw [hstep] at hend
    cases ho : (Lexeme.read pipes g rest).outcome <;> rw [ho] at hend <;> cases hend

/-- If a minus sign after some glyphs is one more token, the tokens of the glyphs do not depend on
what comes after them, provided that it begins with a blank or with a minus sign. -/
theorem append_iff (hm : m.char = '-') (h : Tokenized pipes gs us)
    (hminus : Tokenized pipes (gs ++ [m]) (us ++ [u])) (hD : Stops D) :
    Tokenized pipes (gs ++ D) ts ↔ ∃ vs, ts = us ++ vs ∧ Tokenized pipes D vs := by
  -- Before the minus sign the tokens end at `mid`, and so they do before everything that stops them.
  obtain ⟨rest, hcuts, hrest⟩ := exists_cuts hminus
  obtain ⟨mid, rfl⟩ : ∃ mid, rest = mid ++ [m] := by
    obtain ⟨taken, htaken⟩ := hcuts.exists_append
    obtain rfl | ⟨mid, last, rfl⟩ := List.eq_nil_or_concat rest
    · cases hrest with
      | token h => rw [Scan.read_nil] at h; cases h
    · rw [List.concat_eq_append, ← List.append_assoc] at htaken
      obtain ⟨-, hlast⟩ := List.append_inj' htaken rfl
      exact ⟨mid, by rw [List.concat_eq_append, hlast]⟩
  have hcut : ∀ {Y}, Stops Y → Cuts pipes default (gs ++ Y) us (mid ++ Y) := hcuts.of_minus hm
  -- Nothing follows them in the glyphs on their own, so that `mid` is a gap.
  have hgap : Gap.read .blank (mid ++ [m]) = ⟨mid, [m], true⟩ := by
    refine gap_of_minus hm ?_ hrest
    have hnil := hcut stops_nil
    rw [List.append_nil, List.append_nil] at hnil
    obtain ⟨vs, hvs, hmid⟩ := h.exists_of_cuts hnil
    obtain rfl : vs = [] := by simpa using hvs
    exact hmid
  have hend : m.isEnd = false := Glyph.isEnd_of_toNat_pos (by rw [hm]; decide)
  constructor
  · intro h
    obtain ⟨vs, rfl, hvs⟩ := h.exists_of_cuts (hcut hD)
    exact ⟨vs, rfl, (gap_append_iff hgap hend).1 hvs⟩
  · rintro ⟨vs, rfl, hvs⟩
    exact .of_cuts (hcut hD) ((gap_append_iff hgap hend).2 hvs)

end Tokenized

end Reckon
