import Reckon.Proofs.Faults

/-!
# The contents of numbers

What is recorded of a number. The contents of its token are a numeral: an optional minus sign,
digits with a point or without, and possibly the mark `E`, an optional sign and digits. The class of
the token is the one that its contents show, and as the number is read its class only rises. The
grammar calls a numeral malformed only if there are no digits behind the sign of its exponent.

## Main definitions

* `NumberTail.readAsserted?` — reading a number, with every change of its class asserted.
* `IsNumeral` — the contents of a number of some class.

## Main statements

* `NumberTail.readAsserted?_eq` — the assertions hold.
* `NumberText.isNumeral_recorded` — what is recorded of the text of a number is a numeral.
* `IsNumeral.read?_eq_none_iff` — the numerals that name no number.
* `Lexer.numeral_of_fetch` — the numbers that a lexer gives.
-/

namespace Reckon

variable {kind : Token.Kind} {c : Char} {w : List Char}

/-! ### Changes of class -/

/-- The rank of a class of tokens. Numbers rise in it. -/
def Token.Kind.rank : Token.Kind → ℕ
  | .integer => 0
  | .decimal => 1
  | .scientific => 2
  | _ => 255

/-- Moves a number to another class. There is an assertion that it was a number and moves up. -/
def Token.Kind.upgrade? (kind kind' : Token.Kind) : Option Token.Kind :=
  if kind ∈ [.integer, .decimal, .scientific] ∧ kind.rank < kind'.rank then some kind' else none

/-- Reads on in a number, with every change of its class asserted. -/
def NumberTail.readAsserted? : Token.Kind → List Glyph → Option NumberTail
  | kind, [] => some ⟨[], [], kind, none⟩
  | kind, g :: gs =>
    if g.isDigit || (g.is '_' && nextIs Glyph.isDigit gs) then
      (readAsserted? kind gs).map (cons g)
    else if g.is '.' then
      if kind = .decimal ∨ kind = .scientific then
        some ⟨[], g :: gs, kind, some .point⟩
      else
        (kind.upgrade? .decimal).bind fun kind => (readAsserted? kind gs).map (cons g)
    else if g.isExponentMark && nextIs (fun h => h.isDigit || h.isSign) gs then
      if kind = .scientific then
        some ⟨[], g :: gs, kind, some .exponent⟩
      else
        (kind.upgrade? .scientific).bind fun kind =>
          match gs with
          | [] => some ⟨[], [g], kind, none⟩
          | h :: hs =>
            if h.isSign then
              (readAsserted? kind hs).map fun t => (t.cons h).cons g
            else
              (readAsserted? kind (h :: hs)).map (cons g)
    else
      some ⟨[], g :: gs, kind, none⟩

theorem Token.Kind.upgrade?_scientific (h : kind = .integer ∨ kind = .decimal ∨ kind = .scientific)
    (hne : kind ≠ .scientific) : kind.upgrade? .scientific = some .scientific := by
  rcases h with rfl | rfl | rfl
  · rfl
  · rfl
  · exact absurd rfl hne

/-- A number changes its class only upwards. -/
theorem NumberTail.readAsserted?_eq (gs : List Glyph)
    (hkind : kind = .integer ∨ kind = .decimal ∨ kind = .scientific) :
    readAsserted? kind gs = some (read kind gs) := by
  fun_induction read kind gs
  case case1 => rfl
  case case2 kind g gs hg ih =>
    rw [readAsserted?.eq_def]
    simp only [hg, if_true, ih hkind]
    rfl
  case case3 g gs hg hpoint ih =>
    have hup : Token.Kind.upgrade? .integer .decimal = some .decimal := rfl
    rw [readAsserted?.eq_def]
    simp [hg, hpoint, hup, ih]
  case case4 kind g gs hg hpoint hk =>
    have hk : kind = .decimal ∨ kind = .scientific := hkind.resolve_left hk
    rw [readAsserted?.eq_def]
    simp only [hg, hpoint, hk, if_true, Bool.false_eq_true, if_false]
  case case5 g gs hg hpoint hmark =>
    rw [readAsserted?.eq_def]
    simp only [hg, hpoint, hmark, if_true, Bool.false_eq_true, if_false]
  case case6 kind g hpoint hk hg hmark => simp [nextIs] at hmark
  case case7 kind g hpoint hk h hs hsign hg hmark ih =>
    have hup := Token.Kind.upgrade?_scientific hkind hk
    rw [readAsserted?.eq_def]
    simp only [hg, hpoint, hmark, hk, hup, hsign, ih (.inr (.inr rfl)), if_true, if_false,
      Bool.false_eq_true, Option.bind_some, Option.map_some]
  case case8 kind g hpoint hk h hs hsign hg hmark ih =>
    have hup := Token.Kind.upgrade?_scientific hkind hk
    rw [readAsserted?.eq_def]
    simp only [hg, hpoint, hmark, hk, hup, hsign, ih (.inr (.inr rfl)), if_true, if_false,
      Bool.false_eq_true, Option.bind_some, Option.map_some]
  case case9 kind g gs hg hpoint hmark =>
    rw [readAsserted?.eq_def]
    simp only [hg, hpoint, hmark, Bool.false_eq_true, if_false]

/-! ### Contents -/

/-- Nothing but digits. -/
def AreDigits (ds : List Char) : Prop := ∀ c ∈ ds, c.isDigit

/-- The contents of a number of class `kind`: an optional minus sign, digits with a point or
without, one of them at least, and for a scientific number the mark `E`, an optional sign and
digits, which may be missing after a sign. -/
inductive IsNumeral : Token.Kind → List Char → Prop
  | integer {sign ds} (hsign : sign = [] ∨ sign = ['-']) (hds : AreDigits ds) (hne : ds ≠ []) :
    IsNumeral .integer (sign ++ ds)
  | decimal {sign ds fs} (hsign : sign = [] ∨ sign = ['-']) (hds : AreDigits ds)
    (hfs : AreDigits fs) (hne : ds ++ fs ≠ []) : IsNumeral .decimal (sign ++ (ds ++ '.' :: fs))
  | scientific {kind cs s es} (hkind : kind ≠ .scientific) (hcs : IsNumeral kind cs)
    (hs : s = [] ∨ s = ['+'] ∨ s = ['-']) (hes : AreDigits es) (hne : s = [] → es ≠ []) :
    IsNumeral .scientific (cs ++ 'E' :: (s ++ es))

/-- The contents that are recorded of a number. -/
def recorded (w : List Char) : List Char := (w.map capitalMark).filter (· != '_')

theorem recorded_append (v w : List Char) : recorded (v ++ w) = recorded v ++ recorded w := by
  simp [recorded]

theorem recorded_cons (c : Char) (w : List Char) :
    recorded (c :: w) = if c = '_' then recorded w else capitalMark c :: recorded w := by
  by_cases hc : c = '_'
  · simp [recorded, capitalMark, hc]
  · have hmark : capitalMark c ≠ '_' := by
      unfold capitalMark
      split
      · decide
      · exact hc
    simp [recorded, hc, hmark]

theorem capitalMark_of_isDigit (hc : c.isDigit) : capitalMark c = c ∧ c ≠ '_' := by
  constructor
  · rw [capitalMark, if_neg]
    rintro rfl
    cases hc
  · rintro rfl
    cases hc

theorem Grouped.areDigits_recorded (h : Grouped w) : AreDigits (recorded w) := by
  induction w with
  | nil => exact fun c hc => absurd hc List.not_mem_nil
  | cons c w ih =>
    obtain ⟨hdigit | ⟨rfl, -⟩, hw⟩ := h
    · obtain ⟨hc, hne⟩ := capitalMark_of_isDigit hdigit
      rw [recorded_cons, if_neg hne, hc]
      exact List.forall_mem_cons.2 ⟨hdigit, ih hw⟩
    · rw [recorded_cons, if_pos rfl]
      exact ih hw

theorem BeginsDigit.recorded_ne_nil (h : BeginsDigit w) : recorded w ≠ [] := by
  cases w with
  | nil => simp [BeginsDigit] at h
  | cons c w =>
    rw [recorded_cons, if_neg (capitalMark_of_isDigit (beginsDigit_cons.1 h)).2]
    exact List.cons_ne_nil _ _

theorem IsExponent.recorded (h : IsExponent w) : ∃ s es, recorded w = s ++ es ∧
    (s = [] ∨ s = ['+'] ∨ s = ['-']) ∧ AreDigits es ∧ (s = [] → es ≠ []) := by
  cases h with
  | unsigned hds hfirst =>
    exact ⟨[], _, rfl, .inl rfl, hds.areDigits_recorded, fun _ => hfirst.recorded_ne_nil⟩
  | @signed s ds hs hds =>
    refine ⟨[s], _, ?_, ?_, hds.areDigits_recorded, by simp⟩
    · rcases hs with rfl | rfl <;> rfl
    · rcases hs with rfl | rfl <;> simp

theorem Mantissa.isNumeral {sign : List Char} (hsign : sign = [] ∨ sign = ['-'])
    (h : Mantissa .integer kind w) (hfirst : BeginsBare w) :
    kind ≠ .scientific ∧ IsNumeral kind (sign ++ recorded w) := by
  cases h with
  | whole hds =>
    refine ⟨by simp, .integer hsign hds.areDigits_recorded ?_⟩
    rcases hfirst with h | ⟨fs, rfl, -⟩
    · exact h.recorded_ne_nil
    · simp [Grouped] at hds
  | @pointed ds fs hds hfs =>
    rw [recorded_append, recorded_cons, if_neg (by decide)]
    refine ⟨by simp, .decimal hsign hds.areDigits_recorded hfs.areDigits_recorded ?_⟩
    rcases hfirst with h | ⟨fs', heq, h⟩
    · simp [(BeginsDigit.of_append rfl h).recorded_ne_nil]
    · cases ds with
      | nil =>
        obtain rfl := (List.cons.inj heq).2
        simp [h.recorded_ne_nil]
      | cons d ds =>
        obtain rfl := (List.cons.inj heq).1
        simp [Grouped] at hds

theorem recorded_mark {m : Char} (hm : m = 'e' ∨ m = 'E') (w : List Char) :
    recorded (m :: w) = 'E' :: recorded w := by
  rcases hm with rfl | rfl <;> rfl

/-- What is recorded of the text of a number is a numeral. -/
theorem NumberText.isNumeral_recorded (h : NumberText kind w) : IsNumeral kind (recorded w) := by
  have hcarries {sign w : List Char} (hsign : sign = [] ∨ sign = ['-'])
      (hw : Carries .integer kind w) (hfirst : BeginsBare w) :
      IsNumeral kind (sign ++ recorded w) := by
    cases hw with
    | unscaled hw => exact (hw.isNumeral hsign hfirst).2
    | scaled hkind hw hm he =>
      obtain ⟨hkind, hnumeral⟩ := hw.isNumeral hsign (hfirst.of_mark hm)
      obtain ⟨s, es, hrecorded, hs, hes, hne⟩ := he.recorded
      rw [recorded_append, recorded_mark hm, hrecorded, ← List.append_assoc]
      exact .scientific hkind hnumeral hs hes hne
  cases h with
  | bare hw hfirst => exact hcarries (.inl rfl) hw hfirst
  | negative hw hfirst => exact hcarries (.inr rfl) hw hfirst

namespace IsNumeral

variable {cs rest : List Char}

/-- The class of a numeral shows in it. -/
theorem kind_eq (h : IsNumeral kind cs) :
    kind = if 'E' ∈ cs then .scientific else if '.' ∈ cs then .decimal else .integer := by
  have hdigits {c : Char} {ds : List Char} (hc : c.isDigit = false) (hds : AreDigits ds) :
      c ∉ ds := fun hmem => by simp [hds c hmem] at hc
  cases h with
  | integer hsign hds hne =>
    rcases hsign with rfl | rfl <;> simp [hdigits (c := 'E') rfl hds, hdigits (c := '.') rfl hds]
  | decimal hsign hds hfs hne =>
    rcases hsign with rfl | rfl <;>
      simp [hdigits (c := 'E') rfl hds, hdigits (c := 'E') rfl hfs]
  | scientific hkind hcs hs hes hne => simp

end IsNumeral

/-! ### Numerals as numbers -/

namespace Decimal

variable {sign ds fs s es cs rest : List Char}

theorem ne_sign_of_isDigit (hc : c.isDigit) : c ≠ '-' ∧ c ≠ '+' := by
  constructor <;> rintro rfl <;> cases hc

/-- The sign of a numeral is read off its front. -/
theorem readSign_append (hsign : sign = [] ∨ sign = ['+'] ∨ sign = ['-'])
    (hcs : ∀ c ∈ cs.head?, c ≠ '-' ∧ c ≠ '+') :
    ∃ negative, readSign (sign ++ cs) = (negative, cs) := by
  rcases hsign with rfl | rfl | rfl
  · refine ⟨false, ?_⟩
    show readSign cs = _
    unfold readSign
    split
    · exact absurd rfl (hcs _ rfl).1
    · exact absurd rfl (hcs _ rfl).2
    · rfl
  · exact ⟨false, rfl⟩
  · exact ⟨true, rfl⟩

theorem digits_append (hds : AreDigits ds) (hrest : ∀ c ∈ rest.head?, c.isDigit = false) :
    (ds ++ rest).takeWhile Char.isDigit = ds ∧ (ds ++ rest).dropWhile Char.isDigit = rest := by
  rw [List.takeWhile_append_of_pos hds, List.dropWhile_append_of_pos hds]
  cases rest with
  | nil => simp
  | cons c rest => simp [hrest c rfl]

/-- An exponent is read if there are digits in it. -/
theorem isSome_readExponent? (hs : s = [] ∨ s = ['+'] ∨ s = ['-']) (hes : AreDigits es) :
    (readExponent? ('E' :: (s ++ es))).isSome ↔ es ≠ [] := by
  have hunsigned : ∀ c ∈ es.head?, c ≠ '-' ∧ c ≠ '+' := fun c hc =>
    ne_sign_of_isDigit (hes c (List.mem_of_mem_head? hc))
  obtain ⟨negative, hsign⟩ := readSign_append hs hunsigned
  have hall : es.all Char.isDigit := List.all_eq_true.2 hes
  simp only [readExponent?, hsign, hall]
  cases es <;> simp

theorem readFraction_append {fraction : List Char} (hfs : AreDigits fs)
    (hfraction : fraction = [] ∧ fs = [] ∨ fraction = '.' :: fs)
    (hrest : ∀ c ∈ rest.head?, c = 'E') : readFraction (fraction ++ rest) = (fs, rest) := by
  rcases hfraction with ⟨rfl, rfl⟩ | rfl
  · cases rest with
    | nil => rfl
    | cons c rest =>
      obtain rfl := hrest c rfl
      rfl
  · have hend : ∀ c ∈ rest.head?, c.isDigit = false := fun c hc => by rw [hrest c hc]; rfl
    obtain ⟨htake, hdrop⟩ := digits_append hfs hend
    rw [List.cons_append, readFraction, htake, hdrop]

/-- Whether a numeral is read depends on its exponent. -/
theorem isSome_read? {fraction : List Char} (hsign : sign = [] ∨ sign = ['-'])
    (hds : AreDigits ds) (hfs : AreDigits fs)
    (hfraction : fraction = [] ∧ fs = [] ∨ fraction = '.' :: fs) (hne : ds ++ fs ≠ [])
    (hrest : ∀ c ∈ rest.head?, c = 'E') :
    (read? (sign ++ (ds ++ (fraction ++ rest)))).isSome = (readExponent? rest).isSome := by
  have hbehind : ∀ c ∈ (fraction ++ rest).head?, c = '.' ∨ c = 'E' := by
    rcases hfraction with ⟨rfl, -⟩ | rfl
    · exact fun c hc => .inr (hrest c hc)
    · rintro c ⟨⟩
      exact .inl rfl
  have hread := readFraction_append hfs hfraction hrest
  have hmark : ∀ c ∈ (fraction ++ rest).head?, c.isDigit = false := by
    intro c hc
    rcases hbehind c hc with rfl | rfl <;> rfl
  have hunsigned : ∀ c ∈ (ds ++ (fraction ++ rest)).head?, c ≠ '-' ∧ c ≠ '+' := by
    cases ds with
    | nil =>
      intro c hc
      rcases hbehind c hc with rfl | rfl <;> decide
    | cons d ds =>
      rintro c ⟨⟩
      exact ne_sign_of_isDigit (hds d List.mem_cons_self)
  obtain ⟨negative, hnegative⟩ := readSign_append (hsign.imp_right .inr) hunsigned
  obtain ⟨htake, hdrop⟩ := digits_append hds hmark
  have hnonempty : (ds.isEmpty && fs.isEmpty) = false := by
    simpa [← Bool.not_eq_true] using hne
  simp only [read?, hnegative, htake, hdrop, hread, hnonempty]
  simp

end Decimal

namespace IsNumeral

variable {cs rest : List Char}

theorem isSome_read? (h : IsNumeral kind cs) (hkind : kind ≠ .scientific)
    (hrest : ∀ c ∈ rest.head?, c = 'E') :
    (Decimal.read? (cs ++ rest)).isSome = (Decimal.readExponent? rest).isSome := by
  cases h with
  | integer hsign hds hne =>
    have hnone : AreDigits [] := fun c hc => absurd hc List.not_mem_nil
    rw [List.append_assoc]
    exact Decimal.isSome_read? hsign hds hnone (.inl ⟨rfl, rfl⟩) (by simpa using hne) hrest
  | decimal hsign hds hfs hne =>
    rw [List.append_assoc, List.append_assoc]
    exact Decimal.isSome_read? hsign hds hfs (.inr rfl) hne hrest
  | scientific => exact absurd rfl hkind

/-- A numeral ends with the sign of its exponent if and only if there are no digits behind it. -/
theorem ends_iff {s es : List Char} (hs : s = [] ∨ s = ['+'] ∨ s = ['-']) (hes : AreDigits es)
    (hne : s = [] → es ≠ []) :
    ['E', '+'] <:+ cs ++ 'E' :: (s ++ es) ∨ ['E', '-'] <:+ cs ++ 'E' :: (s ++ es) ↔ es = [] := by
  have hlast {sign : Char} (hdigit : sign.isDigit = false)
      (h : ['E', sign] <:+ cs ++ 'E' :: (s ++ es)) : es = [] := by
    obtain rfl | ⟨init, d, rfl⟩ := es.eq_nil_or_concat'
    · rfl
    · obtain ⟨pre, hpre⟩ := h
      have hconcat : cs ++ 'E' :: (s ++ (init ++ [d])) = cs ++ 'E' :: (s ++ init) ++ [d] := by
        simp only [List.append_assoc, List.cons_append]
      have hlast := congrArg List.getLast? (hpre.trans hconcat)
      rw [List.getLast?_concat] at hlast
      obtain rfl : sign = d := by simpa using hlast
      rw [hes sign (by simp)] at hdigit
      cases hdigit
  constructor
  · rintro (h | h)
    · exact hlast rfl h
    · exact hlast rfl h
  · rintro rfl
    rcases hs with rfl | rfl | rfl
    · exact absurd rfl (hne rfl)
    · exact .inl (List.suffix_append cs _)
    · exact .inr (List.suffix_append cs _)

/-- A numeral names no number if and only if there are no digits behind the sign of its exponent. -/
theorem read?_eq_none_iff (h : IsNumeral kind cs) :
    Decimal.read? cs = none ↔ ['E', '+'] <:+ cs ∨ ['E', '-'] <:+ cs := by
  rw [← Option.not_isSome_iff_eq_none]
  by_cases hscientific : kind = .scientific
  · subst hscientific
    cases h with
    | scientific hkind hcs hs hes hne =>
      rw [hcs.isSome_read? hkind (by simp), Decimal.isSome_readExponent? hs hes, not_not,
        ends_iff hs hes hne]
  · have hsome : (Decimal.read? (cs ++ [])).isSome := h.isSome_read? hscientific (by simp)
    have hmark : 'E' ∉ cs := fun hmem => hscientific (by rw [h.kind_eq, if_pos hmem])
    rw [List.append_nil] at hsome
    refine iff_of_false (by simp [hsome]) ?_
    rintro (h | h)
    · exact hmark (h.subset (by simp))
    · exact hmark (h.subset (by simp))

end IsNumeral

/-! ### Tokens of numbers -/

namespace Lexeme

variable {pipes : Bool} {g : Glyph} {gs : List Glyph} {t : Token}

theorem number_of_isNumber (ho : (read pipes g gs).outcome = .ok t) (ht : t.isNumber) :
    beginsNumber g gs ∧ (number g gs).outcome = .ok t := by
  unfold read at ho
  split_ifs at ho with hnumber hletter hbracket hcontrol
  · exact ⟨hnumber, ho⟩
  · obtain rfl := Except.ok.inj ho
    cases ht
  · obtain rfl := Except.ok.inj ho
    unfold Token.ofGlyph at ht
    split at ht <;> cases ht
  · unfold symbol at ho
    split at ho
    · split at ho
      all_goals
        obtain rfl := Except.ok.inj ho
        cases ht
    · obtain rfl := Except.ok.inj ho
      cases ht

/-- A number is recorded as it is written, with a capital mark and, in its contents, without
underscores. -/
theorem recorded_of_number (ho : (number g gs).outcome = .ok t) :
    let tail := NumberTail.read (if g.is '.' then .decimal else .integer) gs
    t.kind = tail.kind ∧ t.source.toList = ((g :: tail.glyphs).map (·.char)).map capitalMark ∧
      t.contents.toList = recorded ((g :: tail.glyphs).map (·.char)) := by
  intro tail
  unfold number at ho
  dsimp only at ho
  split at ho
  · cases ho
  · cases ho
  · obtain rfl := Except.ok.inj ho
    rw [← numberSource_eq_map, recorded, ← numberSource_eq_map]
    exact ⟨rfl, String.toList_ofList, String.toList_ofList⟩

end Lexeme

namespace Grammar

variable {α : Type} [Numeral α] {t : Token} {rest : List Token} {ending : Except Error Position}

/-- A number is malformed if its contents name no number. -/
theorem literal_eq_malformed_iff (hending : ∀ s p, ending ≠ .error (.malformedNumber s p))
    (ht : t.isNumber) :
    literal (α := α) ending (t :: rest) = .error (.malformedNumber t.source t.position) ↔
      Decimal.read? t.contents.toList = none := by
  unfold literal
  dsimp only
  rw [if_pos ht]
  cases hd : Decimal.read? t.contents.toList with
  | none => exact iff_of_true rfl rfl
  | some d =>
    refine iff_of_false (fun h => ?_) (Option.some_ne_none d)
    cases rest with
    | nil =>
      cases hend : ending with
      | ok p =>
        rw [hend] at h
        cases h
      | error e =>
        rw [hend] at h
        exact hending _ _ (hend.trans (congrArg _ (Except.error.inj h)))
    | cons next rest =>
      dsimp only at h
      split at h
      · split at h <;> cases h
      · cases h

end Grammar

namespace Lexer

/-- A step gives what it gives, or the source cannot be read. -/
theorem outcome_eq_or (l : Lexer) (s : Scan) :
    l.outcome s = s.outcome ∨ ∃ reason, l.outcome s = .error (.unreadable reason) := by
  unfold outcome
  split
  · next reason _ =>
    split
    · exact .inr ⟨reason, rfl⟩
    · exact .inl rfl
  · exact .inl rfl

theorem outcome_next_of_fetch {l l' : Lexer} {token? : Option Token}
    (h : fetch l = .ok token? l') : l.next.outcome = .ok token? := by
  unfold fetch at h
  dsimp only at h
  split at h
  · next ho =>
    obtain ⟨rfl, -⟩ := EStateM.Result.ok.inj h
    rcases l.outcome_eq_or l.next with heq | ⟨reason, heq⟩
    · exact heq.symm.trans ho
    · cases heq.symm.trans ho
  · cases h

/-- No step finds a number malformed. -/
theorem next_ne_malformed (l : Lexer) (s : String) (p : Position) :
    l.next.outcome ≠ .error (.malformedNumber s p) := by
  intro h
  rcases Scan.exists_of_error h with ⟨gap, rest, -, hcomment⟩ | ⟨gap, g, rest, -, -, ho⟩
  · cases hcomment
  · rcases Lexeme.error_cases ho with ⟨-, hnumber⟩ | ⟨-, hcharacter⟩
    · unfold Lexeme.number at hnumber
      dsimp only at hnumber
      split at hnumber <;> cases hnumber
    · cases hcharacter

theorem ending_ne_malformed (l : Lexer) (s : String) (p : Position) :
    l.tokens.ending ≠ .error (.malformedNumber s p) := by
  fun_induction tokens l
  case case1 l t l' hf _ rest ih => exact ih
  case case2 l l' hf => exact fun h => by cases h
  case case3 l e l' hf =>
    intro h
    obtain rfl := Except.error.inj h
    unfold fetch at hf
    dsimp only at hf
    split at hf
    · cases hf
    · next e ho =>
      obtain ⟨rfl, -⟩ := EStateM.Result.error.inj hf
      rcases l.outcome_eq_or l.next with heq | ⟨reason, heq⟩
      · exact l.next_ne_malformed s p (heq.symm.trans ho)
      · cases heq.symm.trans ho

/-- The number that a lexer gives. Its contents are a numeral of its class, which shows in them, and
they are its source without underscores. Whenever a number changes its class as it is read, it was a
number and moves up. The number is malformed if and only if its contents end with the sign of an
exponent. -/
theorem numeral_of_fetch {l l' : Lexer} {t : Token} (h : fetch l = .ok (some t) l')
    (ht : t.isNumber) :
    let cs := t.contents.toList
    IsNumeral t.kind cs ∧
      (t.kind = if 'E' ∈ cs then .scientific else if '.' ∈ cs then .decimal else .integer) ∧
      cs = t.source.toList.filter (· != '_') ∧
      (∀ (g : Glyph) (gs : List Glyph), let start := if g.is '.' then .decimal else .integer
        NumberTail.readAsserted? start gs = some (NumberTail.read start gs)) ∧
      ∀ {α : Type} [Numeral α],
        Grammar.literal (α := α) l'.tokens.ending (t :: l'.tokens.ahead) =
            .error (.malformedNumber t.source t.position) ↔
          ['E', '+'] <:+ cs ∨ ['E', '-'] <:+ cs := by
  intro cs
  obtain ⟨gap, g, gs, -, -, ho, -⟩ := Scan.exists_of_token (outcome_next_of_fetch h)
  obtain ⟨hnumber, ho⟩ := Lexeme.number_of_isNumber ho ht
  obtain ⟨hkind, hsource, hcontents⟩ := Lexeme.recorded_of_number ho
  have hnumeral : IsNumeral t.kind cs := by
    show IsNumeral t.kind t.contents.toList
    rw [hkind, hcontents]
    exact (Lexeme.numberText_read hnumber).isNumeral_recorded
  refine ⟨hnumeral, hnumeral.kind_eq, by rw [hsource]; exact hcontents, fun g gs => ?_, ?_⟩
  · refine NumberTail.readAsserted?_eq gs ?_
    split <;> simp
  · intro α _
    rw [Grammar.literal_eq_malformed_iff l'.ending_ne_malformed ht]
    exact hnumeral.read?_eq_none_iff

/-- A number with everything that a number may have, but for the digits of the exponent. -/
theorem numeral_of_fetch_signed :
    let l := ofSource {} (.ofString "-1_0.5e+")
    let t : Token := ⟨.scientific, "-10.5E+", "", "-1_0.5E+", ⟨1, 1⟩⟩
    fetch l = .ok (some t) l.asked ∧ t.isNumber ∧ IsNumeral .scientific "-10.5E+".toList ∧
      Grammar.literal (α := ℚ) l.asked.tokens.ending (t :: l.asked.tokens.ahead) =
        .error (.malformedNumber "-1_0.5E+" ⟨1, 1⟩) := by
  intro l t
  have hfetch : fetch l = .ok (some t) l.asked := rfl
  obtain ⟨hnumeral, -, -, -, hmalformed⟩ := numeral_of_fetch hfetch rfl
  exact ⟨hfetch, rfl, hnumeral, hmalformed.2 (.inl ⟨"-10.5".toList, by decide⟩)⟩

end Lexer

end Reckon
