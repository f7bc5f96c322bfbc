import Reckon.Proofs.Layout

/-!
# Texts written anew

If the sources of all tokens of a text are written one after another with a single blank between
them, the text that comes out has the same tokens. A token is read again from its own glyphs if a
blank or nothing follows them. Its source may differ from what it is made of in one respect: there
the mark of an exponent is a capital, and a capital mark is as good as a small one. So nothing of a
text but the sources of its tokens makes a difference to what the tokens are.

## Main definitions

* `IsWord` — some glyphs are a token on their own.
* `respaced` — the sources of tokens with single blanks between them.

## Main statements

* `Lexeme.read_again` — a token is read again from its own glyphs.
* `IsWord.source` — the source of a token is a word for it.
* `Settings.tokens_respaced` — a text written anew has the same tokens.
-/

namespace Reckon

/-! ### Tokens read again -/

/-- What a letter is not. -/
theorem Glyph.of_isLetter {g : Glyph} (h : g.isLetter) :
    g.isDigit = false ∧ g.is '-' = false ∧ g.is '.' = false := by
  have hn : 65 ≤ g.char.toNat := by
    by_cases halpha : g.char.isAlpha
    · obtain h | h := isAlpha_iff_toNat.1 halpha <;> omega
    · simp only [isLetter, halpha, Bool.false_or, Bool.or_eq_true, Bool.and_eq_true,
        decide_eq_true_eq, beq_iff_eq] at h
      omega
  have hne {c : Char} (hc : c.toNat < 65) : g.is c = false := is_eq_false fun h => by
    rw [h] at hn
    omega
  refine ⟨?_, hne (by decide), hne (by decide)⟩
  by_cases halpha : g.char.isAlpha
  · exact (of_isAlpha halpha).2.2.2.1
  · rw [isDigit, ← Bool.not_eq_true, Char.isDigit_iff_toNat]
    have hnine : '9'.toNat = 57 := rfl
    omega

namespace Lexeme

variable {pipes : Bool} {g : Glyph} {gs hs Y : List Glyph} {t : Token}

theorem beginsNumber_of_stops (hY : Stops Y) : beginsNumber g Y = g.isDigit := by
  rw [← List.nil_append Y, beginsNumber_append hY stops_nil]
  simp [beginsNumber, nextIs]

theorem isBracket_of_stops (hY : Stops Y) : isBracket pipes g Y = isBracket pipes g [] := by
  rw [← List.nil_append Y, isBracket_append hY stops_nil, List.nil_append]

/-- What makes a number begin is taken into it. -/
theorem beginsNumber_taken {taken rest : List Glyph} {k : Token.Kind} (hb : beginsNumber g gs)
    (h : NumberTail.read (if g.is '.' then .decimal else .integer) gs = ⟨taken, rest, k, none⟩)
    (Y : List Glyph) : beginsNumber g (taken ++ Y) := by
  simp only [beginsNumber, Bool.or_eq_true, Bool.and_eq_true] at hb ⊢
  obtain (hdigit | ⟨hminus, hdigit | ⟨hpoint, hdigit⟩⟩) | ⟨hpoint, hdigit⟩ := hb
  · exact .inl (.inl hdigit)
  · exact .inl (.inr ⟨hminus, .inl (NumberTail.nextIs_taken hdigit h)⟩)
  · cases gs with
    | nil => cases hpoint
    | cons q gs =>
      have hg : g.is '.' = false := Glyph.is_eq_false (by rw [Glyph.char_of_is hminus]; decide)
      obtain ⟨hnodigit, hunder⟩ := Glyph.of_point hpoint
      rw [NumberTail.read.eq_def] at h
      rw [nextIs_cons] at hpoint
      simp only [hg, hnodigit, hunder, hpoint, Bool.false_and, Bool.false_or, Bool.false_eq_true,
        if_true, if_false] at h
      obtain ⟨taken, rfl, hread⟩ := NumberTail.cons_eq h
      exact .inl (.inr ⟨hminus, .inr ⟨hpoint, NumberTail.nextIs_taken hdigit hread⟩⟩)
  · exact .inr ⟨hpoint, NumberTail.nextIs_taken hdigit h⟩

theorem number_again (hb : beginsNumber g gs) (ho : (number g gs).outcome = .ok t)
    (hg : (number g gs).glyphs = g :: hs) (hY : Stops Y) :
    beginsNumber g (hs ++ Y) ∧ (number g (hs ++ Y)).outcome = .ok t ∧
      (number g (hs ++ Y)).rest = Y := by
  rcases htail : NumberTail.read (if g.is '.' then .decimal else .integer) gs with
    ⟨taken, rest, k, fault⟩
  simp only [number, htail] at ho hg
  obtain rfl := (List.cons.inj hg).2
  cases fault with
  | some fault => cases fault <;> cases ho
  | none =>
    have hagain := NumberTail.read_append htail (NumberTail.read_of_stops hY k)
    simp only [number, hagain]
    exact ⟨beginsNumber_taken hb htail Y, ho, trivial⟩

/-- The second character of a symbol does not begin a number. -/
theorem of_isPair {h : Glyph} (hpair : isPair g h) : h.isDigit = false ∧ h.is '.' = false := by
  rcases h with ⟨c, p⟩
  simp only [isPair, Bool.or_eq_true, Bool.and_eq_true, Glyph.isAny, List.any_cons, List.any_nil,
    Bool.or_false] at hpair
  obtain h | ⟨-, h | h | h⟩ := hpair
  all_goals
    obtain rfl : c = _ := Glyph.char_of_is h
    exact ⟨rfl, rfl⟩

/-- A symbol stays one and does not become a number or a bracket. -/
theorem symbol_again (hdigit : g.isDigit = false) (hbracket : isBracket pipes g gs = false)
    (hg : (symbol g gs).glyphs = g :: hs) (hY : Stops Y) :
    beginsNumber g (hs ++ Y) = false ∧ isBracket pipes g (hs ++ Y) = false ∧
      (symbol g (hs ++ Y)).outcome = (symbol g gs).outcome ∧ (symbol g (hs ++ Y)).rest = Y := by
  have hnumber : beginsNumber g Y = false := (beginsNumber_of_stops hY).trans hdigit
  obtain ⟨hout, hrest⟩ := symbol_append hY g []
  cases gs with
  | nil =>
    obtain rfl : [] = hs := (List.cons.inj hg).2
    exact ⟨hnumber, (isBracket_of_stops hY).trans hbracket, hout, hrest⟩
  | cons h gs =>
    cases hpair : isPair g h with
    | true =>
      simp only [symbol, hpair, if_true] at hg ⊢
      obtain rfl : [h] = hs := (List.cons.inj hg).2
      obtain ⟨hdigit', hpoint⟩ := of_isPair hpair
      refine ⟨?_, hbracket, ?_⟩
      · simp [beginsNumber, nextIs, hdigit, hdigit', hpoint]
      · simp [hpair]
    | false =>
      simp only [symbol, hpair, Bool.false_eq_true, if_false] at hg ⊢
      obtain rfl : [] = hs := (List.cons.inj hg).2
      -- A pipe before a pipe would be one symbol with it, so that this is no pipe.
      have hpipe : (pipes && g.is '|') = false := by
        by_contra hg
        rw [Bool.not_eq_false] at hg
        have hh : h.is '|' := by
          simpa [isBracket, nextIs_cons, hg] using (Bool.or_eq_false_iff.1 hbracket).2
        have hchar := Glyph.char_of_is (Bool.and_eq_true_iff.1 hg).2
        simp [isPair, Glyph.isAny, hh, Glyph.char_of_is hh, hchar] at hpair
      have hbracket' : isBracket pipes g [] = false := by
        rw [isBracket, Bool.or_eq_false_iff] at hbracket ⊢
        exact ⟨hbracket.1, by rw [hpipe, Bool.false_and]⟩
      exact ⟨hnumber, (isBracket_of_stops hY).trans hbracket', hout, hrest⟩

/-- A token is read again from its own glyphs, if a blank, a minus sign or nothing follows them. -/
theorem read_again (ho : (read pipes g gs).outcome = .ok t)
    (hg : (read pipes g gs).glyphs = g :: hs) (hY : Stops Y) :
    (read pipes g (hs ++ Y)).outcome = .ok t ∧ (read pipes g (hs ++ Y)).rest = Y := by
  unfold read at ho hg
  have hnodigit (hb : ¬ beginsNumber g gs) : g.isDigit = false := by
    rw [← Bool.not_eq_true]
    intro hd
    simp [beginsNumber, hd] at hb
  split_ifs at ho hg with hb hletter hbracket hcontrol
  · obtain ⟨hagain, hout, hrest⟩ := number_again hb ho hg hY
    simp only [read, hagain, if_true]
    exact ⟨hout, hrest⟩
  · obtain ⟨hdigit, hminus, hpoint⟩ := Glyph.of_isLetter hletter
    obtain rfl : gs.takeWhile isNamePart = hs := (List.cons.inj hg).2
    have hall : ∀ h ∈ gs.takeWhile isNamePart, isNamePart h := fun h hh => List.mem_takeWhile_imp hh
    obtain ⟨htake, hdrop⟩ := takeWhile_append hY (gs.takeWhile isNamePart)
    rw [List.takeWhile_eq_self_iff.2 hall] at htake
    rw [List.dropWhile_eq_nil_iff.2 hall, List.nil_append] at hdrop
    simp only [read, beginsNumber, hdigit, hminus, hpoint, hletter, Bool.false_and, Bool.false_or,
      Bool.false_eq_true, if_true, if_false, name, htake, hdrop]
    exact ⟨ho, trivial⟩
  · obtain rfl : [] = hs := (List.cons.inj hg).2
    have hnumber : beginsNumber g Y = false := (beginsNumber_of_stops hY).trans (hnodigit hb)
    have hbracket' : isBracket pipes g [] := by
      simp only [isBracket, Bool.or_eq_true, Bool.and_eq_true] at hbracket ⊢
      exact hbracket.imp_right fun h => ⟨h.1, rfl⟩
    rw [← isBracket_of_stops hY] at hbracket'
    simp only [List.nil_append, read, hnumber, hletter, hbracket', Bool.false_eq_true, if_true,
      if_false]
    exact ⟨ho, rfl⟩
  · obtain ⟨hagain, hbracket', hout, hrest⟩ :=
      symbol_again (hnodigit hb) (Bool.eq_false_iff.2 hbracket) hg hY
    simp only [read, hagain, hletter, hbracket', hcontrol, Bool.false_eq_true, if_false]
    exact ⟨hout.trans ho, hrest⟩

end Lexeme

/-! ### Exponent marks -/

/-- An exponent mark as a capital; any other glyph as it is. -/
def Glyph.capital (g : Glyph) : Glyph :=
  ⟨if g.isExponentMark then 'E' else g.char, g.position⟩

namespace Glyph

theorem capital_of_unmarked {g : Glyph} (h : g.isExponentMark = false) : g.capital = g := by
  simp [capital, h]

variable (g : Glyph)

theorem capital_eq : g.capital = g ∨ ∃ q, g = ⟨'e', q⟩ ∧ g.capital = ⟨'E', q⟩ := by
  cases h : g.isExponentMark with
  | false => exact .inl (capital_of_unmarked h)
  | true =>
    rcases g with ⟨c, q⟩
    obtain ⟨c', hc, hg⟩ := List.any_eq_true.1 h
    obtain rfl : c = c' := char_of_is hg
    obtain rfl | rfl : c = 'e' ∨ c = 'E' := by simpa using hc
    · exact .inr ⟨q, rfl, rfl⟩
    · exact .inl rfl

theorem isExponentMark_capital : g.capital.isExponentMark = g.isExponentMark := by
  obtain h | ⟨q, rfl, h⟩ := g.capital_eq <;> rw [h]
  rfl

theorem is_capital {c : Char} (he : c ≠ 'e') (hE : c ≠ 'E') : g.capital.is c = g.is c := by
  obtain h | ⟨q, rfl, h⟩ := g.capital_eq
  · rw [h]
  · rw [h, is_eq_false (g := ⟨'E', q⟩) hE.symm, is_eq_false (g := ⟨'e', q⟩) he.symm]

end Glyph

/-- Capital exponent marks are as good as small ones. -/
theorem NumberTail.unseen_capital : Unseen Glyph.capital where
  isDigit g := by obtain h | ⟨q, rfl, h⟩ := g.capital_eq <;> rw [h]; rfl
  isSign g := by obtain h | ⟨q, rfl, h⟩ := g.capital_eq <;> rw [h]; rfl
  isExponentMark := Glyph.isExponentMark_capital
  is_point g := g.is_capital (by decide) (by decide)
  is_underscore g := g.is_capital (by decide) (by decide)

namespace Lexeme

variable {pipes : Bool} {g : Glyph} {gs hs Y : List Glyph} {t : Token}

theorem numberSource_eq (gs : List Glyph) :
    numberSource gs = (gs.map Glyph.capital).map (·.char) := by
  rw [numberSource, List.map_map]
  rfl

theorem number_capital (g : Glyph) (gs : List Glyph) :
    number g.capital (gs.map Glyph.capital) =
      ⟨(number g gs).glyphs.map Glyph.capital, (number g gs).rest.map Glyph.capital,
        (number g gs).outcome, 2⟩ := by
  have hpoint : g.capital.is '.' = g.is '.' := NumberTail.unseen_capital.is_point g
  have hread (kind : Token.Kind) := NumberTail.read_map NumberTail.unseen_capital kind gs
  have hsource (gs : List Glyph) : numberSource (gs.map Glyph.capital) = numberSource gs := by
    rw [numberSource, List.map_map]
    exact List.map_congr_left fun g _ => by
      simp only [Function.comp, Glyph.isExponentMark_capital]
      split
      · rfl
      · next h => rw [Glyph.capital_of_unmarked (by simpa using h)]
  have hplace (gs : List Glyph) :
      (gs.map Glyph.capital).head?.map (·.position) = gs.head?.map (·.position) := by
    cases gs <;> rfl
  simp only [number, hpoint, hread, ← List.map_cons, hsource, hplace]
  rfl

theorem source_of_number (ho : (number g gs).outcome = .ok t) :
    t.source.toList = numberSource (number g gs).glyphs := by
  simp only [number] at ho ⊢
  split at ho
  · cases ho
  · cases ho
  · obtain rfl := Except.ok.inj ho
    rw [String.toList_ofList]

theorem beginsNumber_capital (hb : beginsNumber g gs) : beginsNumber g (gs.map Glyph.capital) := by
  have hd := nextIs_map (p := Glyph.isDigit) NumberTail.unseen_capital.isDigit
  have hp := nextIs_map (p := (·.is '.')) NumberTail.unseen_capital.is_point
  simpa only [beginsNumber, hd, hp, ← List.map_tail] using hb

/-- What is not a number has the text that it is made of for its source. -/
theorem source_of_read (he : g.isEnd = false) (hb : ¬ beginsNumber g gs)
    (ho : (read pipes g gs).outcome = .ok t) :
    t.source.toList = (read pipes g gs).glyphs.map (·.char) := by
  unfold read at ho ⊢
  split_ifs at ho ⊢
  · obtain rfl := Except.ok.inj ho
    simp [name]
  · obtain rfl := Except.ok.inj ho
    simp [Token.ofGlyph, he, bracket]
  · unfold symbol at ho ⊢
    split at ho
    · split at ho
      all_goals
        obtain rfl := Except.ok.inj ho
        simp_all [symbolToken]
    · obtain rfl := Except.ok.inj ho
      simp [symbolToken]

end Lexeme

/-! ### Words -/

/-- Some glyphs are a token on their own. -/
def IsWord (pipes : Bool) (t : Token) : List Glyph → Prop
  | [] => False
  | g :: gs => g.isEnd = false ∧ Gap.Ends g gs ∧ (Lexeme.read pipes g gs).outcome = .ok t ∧
      (Lexeme.read pipes g gs).rest = []

/-- A token may begin before what stops it if it may begin before something else. -/
theorem Gap.ends_append {g : Glyph} {gs rest Y : List Glyph} (h : Ends g (gs ++ rest))
    (hY : Stops Y) : Ends g (gs ++ Y) := by
  refine ⟨h.1, fun hslash => ?_⟩
  cases gs with
  | nil => exact hY.nextIs fun y hy => by simp [hy.is_eq_false]
  | cons h' gs => exact h.2 hslash

namespace IsWord

variable {pipes : Bool} {t : Token} {g : Glyph} {gs Y : List Glyph}

/-- What a token is cut off as is a word for it. -/
theorem of_read (he : g.isEnd = false) (hends : Gap.Ends g gs)
    (ho : (Lexeme.read pipes g gs).outcome = .ok t) :
    IsWord pipes t (Lexeme.read pipes g gs).glyphs := by
  have hall := Lexeme.glyphs_append_rest pipes g gs
  obtain ⟨g', hs, hglyphs⟩ := List.exists_cons_of_ne_nil (Lexeme.glyphs_ne_nil ho)
  rw [hglyphs] at hall ⊢
  obtain ⟨rfl, hgs⟩ := List.cons.inj hall
  rw [← hgs] at hends
  have hagain := Lexeme.read_again ho hglyphs stops_nil
  rw [List.append_nil] at hagain
  exact ⟨he, List.append_nil hs ▸ Gap.ends_append hends stops_nil, hagain⟩

/-- A word is read before everything that stops it. -/
theorem read_append (h : IsWord pipes t (g :: gs)) (hY : Stops Y) :
    g.isEnd = false ∧ Gap.Ends g (gs ++ Y) ∧ (Lexeme.read pipes g (gs ++ Y)).outcome = .ok t ∧
      (Lexeme.read pipes g (gs ++ Y)).rest = Y := by
  obtain ⟨he, hends, ho, hrest⟩ := h
  have hglyphs := Lexeme.glyphs_append_rest pipes g gs
  rw [hrest, List.append_nil] at hglyphs
  rw [← List.append_nil gs] at hends
  exact ⟨he, Gap.ends_append hends hY, Lexeme.read_again ho hglyphs hY⟩

theorem tokenized_iff {ts : List Token} (h : IsWord pipes t gs) (hY : Stops Y) :
    Tokenized pipes (gs ++ Y) (t :: ts) ↔ Tokenized pipes Y ts := by
  cases gs with
  | nil => exact h.elim
  | cons g gs =>
    obtain ⟨he, hends, ho, hrest⟩ := h.read_append hY
    rw [List.cons_append, Tokenized.iff_of_ends hends he, hrest]
    constructor
    · rintro ⟨t', ts', hts, -, h⟩
      rwa [(List.cons.inj hts).2]
    · exact fun h => ⟨t, ts, rfl, ho, h⟩

theorem unplaced (h : IsWord pipes t gs) : IsWord pipes t.unplaced (gs.map Glyph.unplaced) := by
  cases gs with
  | nil => exact h
  | cons g gs =>
    obtain ⟨he, hends, ho, hrest⟩ := h
    obtain ⟨hrest', ho'⟩ := Lexeme.read_unplaced pipes g gs
    refine ⟨he, ⟨hends.1, fun hslash => ?_⟩, ok_of_toOption ?_, ?_⟩
    · rw [← hends.2 hslash]
      exact nextIs_map (f := Glyph.unplaced) (fun _ => rfl) gs
    · rw [ho', ho]
      rfl
    · rw [hrest', hrest]
      rfl

/-- The source of a token is a word for it, apart from places. -/
theorem source (h : IsWord pipes t gs) :
    ∃ gs', (gs' = gs ∨ gs' = gs.map Glyph.capital) ∧ t.source.toList = gs'.map (·.char) ∧
      IsWord pipes t gs' := by
  cases gs with
  | nil => exact h.elim
  | cons g gs =>
    obtain ⟨he, hends, ho, hrest⟩ := id h
    have hglyphs := Lexeme.glyphs_append_rest pipes g gs
    rw [hrest, List.append_nil] at hglyphs
    by_cases hb : Lexeme.beginsNumber g gs
    · -- Only the mark of an exponent is recorded as another character than it is.
      have hread : Lexeme.read pipes g gs = Lexeme.number g gs := by rw [Lexeme.read, if_pos hb]
      have hg : g.capital = g := Glyph.capital_of_unmarked (Lexeme.unmarked_of_beginsNumber hb)
      have hnumber := Lexeme.number_capital g gs
      rw [hg] at hnumber
      rw [hread] at ho hrest hglyphs
      refine ⟨_, .inr rfl, ?_, ?_⟩
      · rw [Lexeme.source_of_number ho, hglyphs, Lexeme.numberSource_eq]
      · have hread' : Lexeme.read pipes g (gs.map Glyph.capital) =
            Lexeme.number g (gs.map Glyph.capital) := by
          rw [Lexeme.read, if_pos (Lexeme.beginsNumber_capital hb)]
        rw [List.map_cons, hg]
        refine ⟨he, ⟨hends.1, fun hslash => ?_⟩, ?_, ?_⟩
        · rw [← hends.2 hslash]
          refine nextIs_map (fun g => ?_) gs
          simp only [g.is_capital (c := '/') (by decide) (by decide),
            g.is_capital (c := '*') (by decide) (by decide)]
        · rw [hread', hnumber, ho]
        · rw [hread', hnumber, hrest, List.map_nil]
    · refine ⟨_, .inl rfl, ?_, h⟩
      rw [Lexeme.source_of_read he hb ho, hglyphs]

end IsWord

/-! ### Texts written anew -/

namespace Text

/-- The glyphs of some characters, without places. -/
def plain (cs : List Char) : List Glyph := cs.map fun c => ⟨c, default⟩

/-- Characters with numbers below 256, which single bytes stand for. -/
def IsLatin (cs : List Char) : Prop := ∀ c ∈ cs, c.toNat < 256

/-- A text with one byte for each of its characters. -/
def latin (s : String) : List UInt8 := s.toList.map Char.toUInt8

theorem plain_append (cs cs' : List Char) : plain (cs ++ cs') = plain cs ++ plain cs' :=
  List.map_append

theorem isLatin_append {cs cs' : List Char} : IsLatin (cs ++ cs') ↔ IsLatin cs ∧ IsLatin cs' :=
  List.forall_mem_append

/-- The bytes of a text stand for its characters, if all of them have bytes. -/
theorem map_latin {s : String} (h : IsLatin s.toList) : (latin s).map Char.ofUInt8 = s.toList := by
  rw [latin, List.map_map]
  exact (List.map_congr_left fun c hc => ofUInt8_toUInt8 (h c hc)).trans (List.map_id _)

theorem plain_latin {s : String} (h : IsLatin s.toList) :
    Source.plain (latin s) = plain s.toList := by
  rw [plain, ← map_latin h, List.map_map]
  rfl

theorem toNat_lt_of_mem {bytes : List UInt8} {g : Glyph} (h : g ∈ Source.plain bytes) :
    g.char.toNat < 256 := by
  obtain ⟨b, -, rfl⟩ := List.mem_map.1 h
  show b.toUInt32.toNat < 256
  rw [UInt8.toNat_toUInt32]
  exact b.toNat_lt

end Text

/-- The sources of tokens, with single blanks between them. -/
def respaced (ts : List Token) : String := " ".intercalate (ts.map (·.source))

theorem toList_respaced_cons (t : Token) (ts : List Token) :
    (respaced (t :: ts)).toList =
      t.source.toList ++ if ts = [] then [] else ' ' :: (respaced ts).toList := by
  cases ts with
  | nil => simp [respaced]
  | cons t' ts => simp [respaced]

theorem isLatin_respaced {ts : List Token} (h : ∀ t ∈ ts, Text.IsLatin t.source.toList) :
    Text.IsLatin (respaced ts).toList := by
  induction ts with
  | nil => exact List.forall_mem_nil _
  | cons t ts ih =>
    obtain ⟨ht, hts⟩ := List.forall_mem_cons.1 h
    rw [toList_respaced_cons, Text.isLatin_append]
    refine ⟨ht, ?_⟩
    split
    · exact List.forall_mem_nil _
    · exact List.forall_mem_cons.2 ⟨by decide, ih hts⟩

namespace Tokenized

variable {pipes : Bool} {gs : List Glyph} {ts : List Token}

/-- The source of a token that is cut off some glyphs is a word for it, and it has bytes if the
glyphs have. -/
theorem source_of_mem {t : Token} (h : Tokenized pipes gs ts) (ht : t ∈ ts)
    (hgs : ∀ g ∈ gs, g.char.toNat < 256) :
    Text.IsLatin t.source.toList ∧ IsWord pipes t.unplaced (Text.plain t.source.toList) := by
  induction h with
  | ending => cases ht
  | @token gs u ts h hts ih =>
    have hall := Scan.glyphs_append_rest pipes default gs
    obtain rfl | ht := List.mem_cons.1 ht
    · obtain ⟨gap, g, rest, hgap, he, ho, -⟩ := Scan.exists_of_token h
      have hword := IsWord.of_read he (Gap.ends_of_read hgap he) ho
      obtain ⟨gs', hgs', hsource, hword'⟩ := hword.source
      have hlexeme : ∀ g' ∈ (Lexeme.read pipes g rest).glyphs, g'.char.toNat < 256 := by
        intro g' hg'
        have hgap' := Gap.glyphs_append_rest .blank gs
        rw [hgap, ← Lexeme.glyphs_append_rest pipes g rest] at hgap'
        refine hgs g' ?_
        rw [← hgap']
        exact List.mem_append_right _ (List.mem_append_left _ hg')
      rw [hsource]
      refine ⟨fun c hc => ?_, ?_⟩
      · obtain ⟨g', hg', rfl⟩ := List.mem_map.1 hc
        obtain rfl | rfl := hgs'
        · exact hlexeme g' hg'
        · obtain ⟨g', hg, rfl⟩ := List.mem_map.1 hg'
          obtain hcapital | ⟨q, -, hcapital⟩ := g'.capital_eq
          · rw [hcapital]
            exact hlexeme g' hg
          · rw [hcapital]
            exact (by decide : 'E'.toNat < 256)
      · have hplain : Text.plain (gs'.map (·.char)) = gs'.map Glyph.unplaced := List.map_map
        rw [hplain]
        exact hword'.unplaced
    · refine ih ht fun g hg => hgs g ?_
      rw [← hall]
      exact List.mem_append_right _ hg

theorem of_words (h : ∀ t ∈ ts, IsWord pipes t.unplaced (Text.plain t.source.toList)) :
    Tokenized pipes (Text.plain (respaced ts).toList) (ts.map Token.unplaced) := by
  induction ts with
  | nil => exact .ending (by rw [respaced, List.map_nil, Text.plain]; rfl)
  | cons t ts ih =>
    obtain ⟨ht, hts⟩ := List.forall_mem_cons.1 h
    rw [toList_respaced_cons, Text.plain_append, List.map_cons]
    split
    · next hnil =>
      subst hnil
      exact (ht.tokenized_iff stops_nil).2 (ih hts)
    · have hblank : Glyph.isWhitespace ⟨' ', default⟩ := rfl
      have hstops : Stops (Text.plain (' ' :: (respaced ts).toList)) := by
        rintro y ⟨⟩
        exact .inr rfl
      exact (ht.tokenized_iff hstops).2 ((iff_of_isWhitespace hblank).2 (ih hts))

end Tokenized

theorem Settings.tokenized_respaced {settings : Settings} {bytes : List UInt8} {p : Position}
    (h : (settings.tokens bytes).ending = .ok p) :
    Text.IsLatin (respaced (settings.tokens bytes).ahead).toList ∧
      Tokenized settings.pipeBrackets
        (Source.plain (Text.latin (respaced (settings.tokens bytes).ahead)))
        ((settings.tokens bytes).ahead.map Token.unplaced) := by
  have htokens : settings.tokens bytes = ⟨(settings.tokens bytes).ahead, .ok p⟩ := by rw [← h]
  have hcut := tokenized_iff.2 ⟨_, p, htokens, rfl⟩
  have hsource (t : Token) (ht : t ∈ (settings.tokens bytes).ahead) :=
    hcut.source_of_mem (List.mem_map_of_mem ht) fun _ => Text.toNat_lt_of_mem
  have hlatin := isLatin_respaced fun t ht => (hsource t ht).1
  rw [Text.plain_latin hlatin]
  exact ⟨hlatin, .of_words fun t ht => (hsource t ht).2⟩

/-- If the sources of the tokens of a text are written with single blanks between them, the text
that comes out can be given in bytes, and it has the same tokens apart from their places. So has
every text of which the tokens have these sources, whatever gaps are in it. -/
theorem Settings.tokens_respaced {settings : Settings} {bytes : List UInt8} {p : Position}
    (h : (settings.tokens bytes).ending = .ok p) :
    let ts := (settings.tokens bytes).ahead
    (Text.latin (respaced ts)).map Char.ofUInt8 = (respaced ts).toList ∧
      (∃ ts' p', settings.tokens (Text.latin (respaced ts)) = ⟨ts', .ok p'⟩ ∧
        ts'.map Token.unplaced = ts.map Token.unplaced) ∧
      ∀ bytes' p', (settings.tokens bytes').ending = .ok p' →
        (settings.tokens bytes').ahead.map (·.source) = ts.map (·.source) →
          (settings.tokens bytes').ahead.map Token.unplaced = ts.map Token.unplaced := by
  intro ts
  obtain ⟨hlatin, hcut⟩ := tokenized_respaced h
  refine ⟨Text.map_latin hlatin, tokenized_iff.1 hcut, fun bytes' p' h' hsources => ?_⟩
  -- Both texts are the same if they are written anew, and a text has only one list of tokens.
  obtain ⟨-, hcut'⟩ := tokenized_respaced h'
  rw [respaced, hsources] at hcut'
  obtain ⟨us, q, hus, hmap⟩ := tokenized_iff.1 hcut
  obtain ⟨us', q', hus', hmap'⟩ := tokenized_iff.1 hcut'
  obtain rfl : us = us' := congrArg Tokens.ahead (hus.symm.trans hus')
  rw [← hmap', hmap]

/-- A text without blanks but with a comment, a small exponent mark and underscores. -/
theorem Settings.tokens_respaced_formula :
    let bytes := (Source.ofString "1_0e-3*-.5/*/ half*/-_|x|||y").bytes
    let ts := (({} : Settings).tokens bytes).ahead
    respaced ts = "1_0E-3 * -.5 - _ | x || | y" ∧
      ∃ ts' p', ({} : Settings).tokens (Text.latin (respaced ts)) = ⟨ts', .ok p'⟩ ∧
        ts'.map Token.unplaced = ts.map Token.unplaced := by
  intro bytes ts
  have hending : (({} : Settings).tokens bytes).ending = .ok ⟨1, 28⟩ :=
    ok_of_toOption (by decide +kernel)
  exact ⟨by decide +kernel, (tokens_respaced hending).2.1⟩

end Reckon
