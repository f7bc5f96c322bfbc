import Reckon.Proofs.MinusSign
import Reckon.Proofs.Respacing

/-!
# The texts of numbers

Which texts a number is written as, said without the lexer: digits with underscores before some of
them, with a point or without, then possibly the mark of an exponent with what follows it, and all
of it with a minus sign in front or without. The lexer takes in such texts and no others, and then
goes on behind them. A number that cannot go on as it does has been such a text so far.

## Main definitions

* `Carries` — a text by which a number goes on from one class to another.
* `NumberText` — the text of a number of some class.

## Main statements

* `NumberTail.carries_read`, `Lexeme.numberText_read` — what is taken in is the text of a number.
* `NumberTail.read_of_carries`, `Lexeme.exists_of_numberText` — the text of a number is taken in
  whole.
-/

namespace Reckon

/-! ### The texts of numbers -/

/-- A text begins with a digit. -/
def BeginsDigit (w : List Char) : Prop := ∃ c ∈ w.head?, c.isDigit

/-- Digits, and underscores each of which stands before a digit. -/
def Grouped : List Char → Prop
  | [] => True
  | c :: w => (c.isDigit ∨ c = '_' ∧ BeginsDigit w) ∧ Grouped w

theorem grouped_nil : Grouped [] := trivial

/-- What follows the mark of an exponent: digits, or a sign with digits or without. -/
inductive IsExponent : List Char → Prop
  | unsigned {ds} (hds : Grouped ds) (hfirst : BeginsDigit ds) : IsExponent ds
  | signed {s ds} (hs : s = '+' ∨ s = '-') (hds : Grouped ds) : IsExponent (s :: ds)

/-- Digits with a point or without, after which a number that was of one class is of another. -/
inductive Mantissa : Token.Kind → Token.Kind → List Char → Prop
  | whole {kind ds} (hds : Grouped ds) : Mantissa kind kind ds
  | pointed {ds fs} (hds : Grouped ds) (hfs : Grouped fs) :
    Mantissa .integer .decimal (ds ++ '.' :: fs)

/-- A text by which a number goes on from one class to another. -/
inductive Carries : Token.Kind → Token.Kind → List Char → Prop
  | unscaled {kind kind' w} (hw : Mantissa kind kind' w) : Carries kind kind' w
  | scaled {kind kind' w m e} (hkind : kind' ≠ .scientific) (hw : Mantissa kind kind' w)
    (hm : m = 'e' ∨ m = 'E') (he : IsExponent e) : Carries kind .scientific (w ++ m :: e)

/-- A text begins with a digit, or with a point and a digit. -/
def BeginsBare (w : List Char) : Prop := BeginsDigit w ∨ ∃ fs, w = '.' :: fs ∧ BeginsDigit fs

/-- The text of a number of class `kind`. -/
inductive NumberText (kind : Token.Kind) : List Char → Prop
  | bare {w} (hw : Carries .integer kind w) (hfirst : BeginsBare w) : NumberText kind w
  | negative {w} (hw : Carries .integer kind w) (hfirst : BeginsBare w) : NumberText kind ('-' :: w)

theorem beginsDigit_cons {c : Char} {w : List Char} : BeginsDigit (c :: w) ↔ c.isDigit := by
  simp [BeginsDigit]

theorem BeginsDigit.append {w : List Char} (h : BeginsDigit w) (v : List Char) :
    BeginsDigit (w ++ v) := by
  cases w with
  | nil => simp [BeginsDigit] at h
  | cons c w => rwa [List.cons_append, beginsDigit_cons] at *

/-- If a text goes on behind another one with a character that is no digit, then a digit that the
whole begins with is in the first one. -/
theorem BeginsDigit.of_append {c : Char} {w v : List Char} (hc : c.isDigit = false)
    (h : BeginsDigit (w ++ c :: v)) : BeginsDigit w := by
  cases w with
  | nil =>
    rw [List.nil_append, beginsDigit_cons, hc] at h
    cases h
  | cons c w => rwa [List.cons_append, beginsDigit_cons] at *

theorem BeginsBare.append {w : List Char} (h : BeginsBare w) (v : List Char) :
    BeginsBare (w ++ v) := by
  rcases h with h | ⟨fs, rfl, h⟩
  · exact .inl (h.append v)
  · exact .inr ⟨fs ++ v, rfl, h.append v⟩

theorem BeginsBare.ne_nil {w : List Char} (h : BeginsBare w) : w ≠ [] := by
  rintro rfl
  rcases h with ⟨c, hc, -⟩ | ⟨fs, hfs, -⟩
  · cases hc
  · cases hfs

theorem isDigit_of_mark {m : Char} (hm : m = 'e' ∨ m = 'E') : m.isDigit = false := by
  rcases hm with rfl | rfl <;> rfl

/-- If a text goes on behind another one with a mark, then what the whole begins with is in the
first one. -/
theorem BeginsBare.of_mark {m : Char} {w v : List Char} (hm : m = 'e' ∨ m = 'E')
    (h : BeginsBare (w ++ m :: v)) : BeginsBare w := by
  have hdigit := isDigit_of_mark hm
  rcases h with h | ⟨fs, heq, h⟩
  · exact .inl (h.of_append hdigit)
  · cases w with
    | nil =>
      obtain rfl : m = '.' := (List.cons.inj heq).1
      simp at hm
    | cons c w =>
      obtain ⟨rfl, rfl⟩ := List.cons.inj heq
      exact .inr ⟨w, rfl, h.of_append hdigit⟩

variable {kind kind' : Token.Kind} {c : Char} {w : List Char}

theorem Mantissa.cons (h : Mantissa kind kind' w) (hc : c.isDigit ∨ c = '_' ∧ BeginsDigit w) :
    Mantissa kind kind' (c :: w) := by
  cases h with
  | whole hds => exact .whole ⟨hc, hds⟩
  | @pointed ds fs hds hfs =>
    have hds : Grouped (c :: ds) := ⟨hc.imp_right (And.imp_right (BeginsDigit.of_append rfl)), hds⟩
    exact .pointed hds hfs

namespace Carries

/-- One more digit, or an underscore before one, in front. -/
theorem cons (h : Carries kind kind' w) (hc : c.isDigit ∨ c = '_' ∧ BeginsDigit w) :
    Carries kind kind' (c :: w) := by
  cases h with
  | unscaled hw => exact .unscaled (hw.cons hc)
  | @scaled _ w m e hkind hw hm he =>
    have hc := hc.imp_right (And.imp_right (BeginsDigit.of_append (isDigit_of_mark hm)))
    exact .scaled (w := c :: w) hkind (hw.cons hc) hm he

/-- A point in front makes an integer a decimal. -/
theorem point (h : Carries .decimal kind w) : Carries .integer kind ('.' :: w) := by
  have hmantissa {kind : Token.Kind} {w : List Char} (h : Mantissa .decimal kind w) :
      Mantissa .integer kind ('.' :: w) := by
    cases h with
    | whole hds => exact .pointed grouped_nil hds
  cases h with
  | unscaled hw => exact .unscaled (hmantissa hw)
  | @scaled _ w m e hkind hw hm he => exact .scaled (w := '.' :: w) hkind (hmantissa hw) hm he

/-- Behind an exponent mark there are nothing but digits. -/
theorem of_scientific (h : Carries .scientific kind w) : kind = .scientific ∧ Grouped w := by
  cases h with
  | unscaled hw =>
    cases hw with
    | whole hds => exact ⟨rfl, hds⟩
  | scaled hkind hw =>
    cases hw
    exact absurd rfl hkind

theorem exponent {m : Char} (hkind : kind ≠ .scientific) (hm : m = 'e' ∨ m = 'E')
    (he : IsExponent w) : Carries kind .scientific (m :: w) :=
  .scaled (w := []) hkind (.whole grouped_nil) hm he

end Carries

/-! ### Reading numbers -/

namespace Glyph

variable {g : Glyph}

theorem is_of_char {c : Char} (h : g.char = c) (hc : c ≠ endMark) : g.is c := by
  simp [is, isEnd, h, hc]

theorem isExponentMark_iff : g.isExponentMark ↔ g.char = 'e' ∨ g.char = 'E' := by
  constructor
  · intro h
    obtain ⟨c, hc, hg⟩ := List.any_eq_true.1 h
    rw [char_of_is hg]
    simpa using hc
  · intro h
    refine List.any_eq_true.2 ⟨g.char, by simpa using h, is_of_char rfl ?_⟩
    rcases h with h | h <;> rw [h] <;> decide

theorem isSign_iff : g.isSign ↔ g.char = '+' ∨ g.char = '-' := by
  constructor
  · intro h
    obtain ⟨c, hc, hg⟩ := List.any_eq_true.1 h
    rw [char_of_is hg]
    simpa using hc
  · intro h
    refine List.any_eq_true.2 ⟨g.char, by simpa using h, is_of_char rfl ?_⟩
    rcases h with h | h <;> rw [h] <;> decide

end Glyph

theorem nextIs_isDigit_iff {gs : List Glyph} :
    nextIs Glyph.isDigit gs ↔ BeginsDigit (gs.map (·.char)) := by
  cases gs with
  | nil => simp [nextIs, BeginsDigit]
  | cons g gs => rw [List.map_cons, beginsDigit_cons]; rfl

namespace NumberTail

/-- A number that goes on with some glyphs and then with a tail. -/
def prepend (gs : List Glyph) (t : NumberTail) : NumberTail := { t with glyphs := gs ++ t.glyphs }

theorem prepend_cons (g : Glyph) (gs : List Glyph) (t : NumberTail) :
    prepend (g :: gs) t = (prepend gs t).cons g := rfl

theorem prepend_append (gs hs : List Glyph) (t : NumberTail) :
    prepend (gs ++ hs) t = prepend gs (prepend hs t) := by
  simp [prepend]

theorem cons_inj {g : Glyph} {t t' : NumberTail} : t.cons g = t'.cons g ↔ t = t' := by
  cases t
  cases t'
  simp [cons]

variable {g h : Glyph} {gs rest : List Glyph} {kind kind' : Token.Kind}

theorem read_digit (hg : g.isDigit || (g.is '_' && nextIs Glyph.isDigit gs)) :
    read kind (g :: gs) = (read kind gs).cons g := by
  rw [read.eq_def]
  simp only [hg, if_true]

theorem read_point (hg : g.is '.') : read .integer (g :: gs) = (read .decimal gs).cons g := by
  obtain ⟨hdigit, hunder⟩ := Glyph.of_point hg
  rw [read.eq_def]
  simp [hdigit, hunder, hg]

theorem of_isExponentMark (hg : g.isExponentMark) :
    g.isDigit = false ∧ g.is '_' = false ∧ g.is '.' = false := by
  rcases Glyph.isExponentMark_iff.1 hg with h | h <;>
    simp [Glyph.isDigit, Glyph.is, h]

theorem read_exponent (hg : g.isExponentMark) (hkind : kind ≠ .scientific)
    (hh : h.isDigit || h.isSign) : read kind (g :: h :: gs) =
      if h.isSign then ((read .scientific gs).cons h).cons g
      else (read .scientific (h :: gs)).cons g := by
  obtain ⟨hdigit, hunder, hpoint⟩ := of_isExponentMark hg
  rw [read.eq_def]
  simp [nextIs_cons, hdigit, hunder, hpoint, hg, hkind, hh]

/-- The digit that a number goes on with is taken in. -/
theorem beginsDigit_taken (kind : Token.Kind) (h : nextIs Glyph.isDigit gs) :
    BeginsDigit ((read kind gs).glyphs.map (·.char)) := by
  have htaken : nextIs Glyph.isDigit ((read kind gs).glyphs ++ []) := nextIs_taken h rfl
  rwa [List.append_nil, nextIs_isDigit_iff] at htaken

/-- What a number takes in carries it from its class so far to the class that it has then. -/
theorem carries_read (kind : Token.Kind) (gs : List Glyph) :
    Carries kind (read kind gs).kind ((read kind gs).glyphs.map (·.char)) := by
  have hnil {kind : Token.Kind} : Carries kind kind [] := .unscaled (.whole grouped_nil)
  fun_induction read kind gs
  case case2 kind g gs hg ih =>
    refine ih.cons ?_
    rw [Bool.or_eq_true, Bool.and_eq_true] at hg
    exact hg.imp_right fun hg => ⟨Glyph.char_of_is hg.1, beginsDigit_taken kind hg.2⟩
  case case3 g gs hg hpoint ih =>
    rw [glyphs_cons, List.map_cons, Glyph.char_of_is hpoint]
    exact ih.point
  case case7 kind g hpoint hk h hs hsign hg hmark ih =>
    obtain ⟨hscientific, hds⟩ := ih.of_scientific
    have hm := Glyph.isExponentMark_iff.1 (Bool.and_eq_true_iff.1 hmark).1
    show Carries kind (read .scientific hs).kind _
    rw [hscientific]
    exact .exponent hk hm (.signed (Glyph.isSign_iff.1 hsign) hds)
  case case8 kind g hpoint hk h hs hsign hg hmark ih =>
    obtain ⟨hscientific, hds⟩ := ih.of_scientific
    obtain ⟨hm, hnext⟩ := Bool.and_eq_true_iff.1 hmark
    have hdigit : nextIs Glyph.isDigit (h :: hs) := by simpa [nextIs, hsign] using hnext
    have htaken := beginsDigit_taken .scientific hdigit
    show Carries kind (read .scientific (h :: hs)).kind _
    rw [hscientific]
    exact .exponent hk (Glyph.isExponentMark_iff.1 hm) (.unsigned hds htaken)
  all_goals exact hnil

theorem read_of_grouped (hgs : Grouped (gs.map (·.char))) (kind : Token.Kind)
    (rest : List Glyph) : read kind (gs ++ rest) = (read kind rest).prepend gs := by
  induction gs with
  | nil => rfl
  | cons g gs ih =>
    obtain ⟨hg, hgs⟩ := hgs
    have hg : g.isDigit || (g.is '_' && nextIs Glyph.isDigit (gs ++ rest)) := by
      rw [Bool.or_eq_true, Bool.and_eq_true, nextIs_isDigit_iff, List.map_append]
      exact hg.imp_right fun h => ⟨Glyph.is_of_char h.1 (by decide), h.2.append _⟩
    rw [List.cons_append, read_digit hg, ih hgs, prepend_cons]

theorem read_of_mantissa (hgs : Mantissa kind kind' (gs.map (·.char))) (rest : List Glyph) :
    read kind (gs ++ rest) = (read kind' rest).prepend gs := by
  generalize hw : gs.map (·.char) = w at hgs
  cases hgs with
  | whole hds =>
    subst hw
    exact read_of_grouped hds kind rest
  | pointed hds hfs =>
    obtain ⟨ds, fs, rfl, rfl, hfs'⟩ := List.map_eq_append_iff.1 hw
    obtain ⟨p, fs, rfl, hp, rfl⟩ := List.map_eq_cons_iff.1 hfs'
    have hpoint : p.is '.' := Glyph.is_of_char hp (by decide)
    rw [List.append_assoc, List.cons_append, read_of_grouped hds, read_point hpoint,
      read_of_grouped hfs, prepend_append, prepend_cons]

theorem read_of_isExponent {m : Glyph} (hm : m.isExponentMark) (hkind : kind ≠ .scientific)
    (hgs : IsExponent (gs.map (·.char))) (rest : List Glyph) :
    read kind (m :: (gs ++ rest)) = (read .scientific rest).prepend (m :: gs) := by
  generalize hw : gs.map (·.char) = w at hgs
  cases hgs with
  | unsigned hds hfirst =>
    subst hw
    cases gs with
    | nil => simp [BeginsDigit] at hfirst
    | cons d ds =>
      have hdigit : d.isDigit := beginsDigit_cons.1 hfirst
      have hsign : d.isSign = false := by
        by_contra hs
        rcases Glyph.isSign_iff.1 (Bool.not_eq_false _ ▸ hs) with h | h <;>
          simp [Glyph.isDigit, h] at hdigit
      rw [List.cons_append, read_exponent hm hkind (by simp [hdigit]), hsign, ← List.cons_append,
        read_of_grouped hds, prepend_cons]
      rfl
  | signed hs hds =>
    obtain ⟨s, ds, rfl, rfl, rfl⟩ := List.map_eq_cons_iff.1 hw
    have hsign : s.isSign := Glyph.isSign_iff.2 hs
    rw [List.cons_append, read_exponent hm hkind (by simp [hsign]), if_pos hsign,
      read_of_grouped hds, prepend_cons, prepend_cons]

/-- A number takes in whatever carries it on. -/
theorem read_of_carries (hgs : Carries kind kind' (gs.map (·.char))) (rest : List Glyph) :
    read kind (gs ++ rest) = (read kind' rest).prepend gs := by
  generalize hw : gs.map (·.char) = w at hgs
  cases hgs with
  | unscaled hmantissa =>
    subst hw
    exact read_of_mantissa hmantissa rest
  | scaled hkind hmantissa hm he =>
    obtain ⟨gs, hs, rfl, rfl, hhs⟩ := List.map_eq_append_iff.1 hw
    obtain ⟨m, hs, rfl, rfl, rfl⟩ := List.map_eq_cons_iff.1 hhs
    rw [List.append_assoc, List.cons_append, read_of_mantissa hmantissa,
      read_of_isExponent (Glyph.isExponentMark_iff.2 hm) hkind he, prepend_append]

end NumberTail

namespace Lexeme

variable {g : Glyph} {gs : List Glyph} {kind : Token.Kind}

theorem beginsNumber_iff : beginsNumber g gs ↔
    BeginsUnsigned g gs ∨ g.is '-' ∧ ∃ h hs, gs = h :: hs ∧ BeginsUnsigned h hs := by
  have hbare : (nextIs Glyph.isDigit gs ∨ nextIs (·.is '.') gs ∧ nextIs Glyph.isDigit gs.tail) ↔
      ∃ h hs, gs = h :: hs ∧ BeginsUnsigned h hs := by
    cases gs with
    | nil => simp [nextIs]
    | cons h hs => simp [nextIs_cons, BeginsUnsigned]
  rw [← hbare]
  simp only [beginsNumber, BeginsUnsigned, Bool.or_eq_true, Bool.and_eq_true]
  tauto

theorem beginsUnsigned_iff : BeginsUnsigned g gs ↔ BeginsBare ((g :: gs).map (·.char)) := by
  rw [BeginsUnsigned, nextIs_isDigit_iff, BeginsBare, List.map_cons, beginsDigit_cons]
  refine or_congr_right ⟨fun ⟨hpoint, hdigit⟩ => ⟨_, by rw [Glyph.char_of_is hpoint], hdigit⟩, ?_⟩
  rintro ⟨fs, hfs, hdigit⟩
  obtain ⟨hpoint, rfl⟩ := List.cons.inj hfs
  exact ⟨Glyph.is_of_char hpoint (by decide), hdigit⟩

/-- A number begins as what is taken into it does. -/
theorem BeginsUnsigned.taken (h : BeginsUnsigned g gs) :
    BeginsBare ((NumberTail.read .integer (g :: gs)).glyphs.map (·.char)) := by
  rw [h.tail, NumberTail.glyphs_cons, ← beginsUnsigned_iff]
  exact h.imp_right (And.imp_right fun hdigit =>
    nextIs_isDigit_iff.2 (NumberTail.beginsDigit_taken _ hdigit))

/-- A number has been taken in as a text of its class, also if it cannot go on as it does. -/
theorem numberText_read (hb : beginsNumber g gs) :
    let tail := NumberTail.read (if g.is '.' then .decimal else .integer) gs
    NumberText tail.kind ((g :: tail.glyphs).map (·.char)) := by
  intro tail
  rcases beginsNumber_iff.1 hb with hbare | ⟨hminus, h, hs, rfl, hbare⟩
  · have htaken := hbare.taken
    have hcarries := NumberTail.carries_read .integer (g :: gs)
    rw [hbare.tail] at hcarries htaken
    exact .bare hcarries htaken
  · have hpoint : g.is '.' = false := Glyph.is_eq_false (by rw [Glyph.char_of_is hminus]; decide)
    have htail : tail = NumberTail.read .integer (h :: hs) := by simp only [tail, hpoint]; rfl
    rw [htail, List.map_cons, Glyph.char_of_is hminus]
    exact .negative (NumberTail.carries_read .integer (h :: hs)) hbare.taken

/-- The text of a number is taken in whole, and then the number goes on. -/
theorem exists_of_numberText (h : NumberText kind (gs.map (·.char))) :
    ∃ g hs, gs = g :: hs ∧ ∀ rest, beginsNumber g (hs ++ rest) ∧
      NumberTail.read (if g.is '.' then .decimal else .integer) (hs ++ rest) =
        (NumberTail.read kind rest).prepend hs := by
  generalize hw : gs.map (·.char) = w at h
  cases h with
  | bare hcarries hfirst =>
    subst hw
    cases gs with
    | nil => exact absurd rfl hfirst.ne_nil
    | cons g hs =>
      refine ⟨g, hs, rfl, fun rest => ?_⟩
      have hbare : BeginsUnsigned g (hs ++ rest) := by
        rw [beginsUnsigned_iff, ← List.cons_append, List.map_append]
        exact hfirst.append _
      have hread := NumberTail.read_of_carries hcarries rest
      rw [List.cons_append, hbare.tail, NumberTail.prepend_cons, NumberTail.cons_inj] at hread
      exact ⟨beginsNumber_iff.2 (.inl hbare), hread⟩
  | negative hcarries hfirst =>
    obtain ⟨g, hs, rfl, hg, rfl⟩ := List.map_eq_cons_iff.1 hw
    have hminus : g.is '-' := Glyph.is_of_char hg (by decide)
    have hpoint : g.is '.' = false := Glyph.is_eq_false (by rw [hg]; decide)
    refine ⟨g, hs, rfl, fun rest => ⟨?_, ?_⟩⟩
    · cases hs with
      | nil => exact absurd rfl hfirst.ne_nil
      | cons h hs =>
        refine beginsNumber_iff.2 (.inr ⟨hminus, h, hs ++ rest, rfl, ?_⟩)
        rw [beginsUnsigned_iff, ← List.cons_append, List.map_append]
        exact hfirst.append _
    · rw [hpoint]
      exact NumberTail.read_of_carries hcarries rest

end Lexeme

/-! ### Recording numbers -/

/-- How the mark of an exponent is recorded: as a capital. -/
def capitalMark (c : Char) : Char := if c = 'e' then 'E' else c

theorem Lexeme.numberSource_eq_map (gs : List Glyph) :
    numberSource gs = (gs.map (·.char)).map capitalMark := by
  rw [numberSource, List.map_map]
  refine List.map_congr_left fun g _ => ?_
  by_cases hmark : g.isExponentMark
  · rcases Glyph.isExponentMark_iff.1 hmark with h | h <;> simp [hmark, h, capitalMark]
  · have hchar : g.char ≠ 'e' := fun h => hmark (Glyph.isExponentMark_iff.2 (.inl h))
    simp [hmark, hchar, capitalMark]

end Reckon
