import Reckon.Compile
import Reckon.Proofs.Exact
import Reckon.Proofs.Placement
import Reckon.Proofs.Simplification
import Mathlib.Data.List.TakeWhile

/-!
# Where tokens end

A lexer says that there are no more tokens when it meets the mark for the end of the input. The mark
is a character, and a source may deliver this character itself: a NUL byte ends the tokens, whatever
comes after it. There is no other exception, since no gap and no token takes an end mark. Without
NUL bytes the end token says that everything that the source delivers has been taken, that the
source has been asked for more, and that it has reported its end and not a failure.

## Main definitions

* `Lexer.after` — a lexer that has been asked for some tokens, whatever came of it.
* `Lexer.AtEnd` — the source has reported its end, and nothing that it has delivered is left.

## Main statements

* `Scan.unended_iff` — no step takes an end mark.
* `Lexer.atEnd_iff` — when the end token, and a formula that compiles, stand for the end of the
  source.
-/

namespace Reckon

/-! ### The end mark is never taken -/

namespace Glyph

variable {g : Glyph}

theorem isEnd_of_is {c : Char} (h : g.is c) : g.isEnd = false := by
  rw [is, Bool.and_eq_true] at h
  simpa using h.1

theorem isEnd_of_isAny {cs : List Char} (h : g.isAny cs) : g.isEnd = false := by
  obtain ⟨c, -, hc⟩ := List.any_eq_true.1 h
  exact isEnd_of_is hc

theorem isEnd_of_isWhitespace (h : g.isWhitespace) : g.isEnd = false := by
  apply isEnd_of_toNat_pos
  simp only [isWhitespace, Bool.or_eq_true, Bool.and_eq_true, decide_eq_true_eq, beq_iff_eq] at h
  omega

theorem isEnd_of_isDigit (h : g.isDigit) : g.isEnd = false := (of_isDigit h).2.1

theorem isEnd_of_isLetter (h : g.isLetter) : g.isEnd = false := by
  by_cases ha : g.char.isAlpha
  · exact (of_isAlpha ha).2.2.1
  · apply isEnd_of_toNat_pos
    simp only [isLetter, ha, Bool.false_or, Bool.or_eq_true, Bool.and_eq_true, decide_eq_true_eq,
      beq_iff_eq] at h
    omega

end Glyph

/-- No end mark is among some glyphs. -/
def Unended (gs : List Glyph) : Prop := ∀ g ∈ gs, g.isEnd = false

theorem unended_nil : Unended [] := by simp [Unended]

theorem unended_cons {g : Glyph} {gs : List Glyph} :
    Unended (g :: gs) ↔ g.isEnd = false ∧ Unended gs := by
  simp [Unended]

theorem unended_append {gs hs : List Glyph} : Unended (gs ++ hs) ↔ Unended gs ∧ Unended hs := by
  simp only [Unended, List.mem_append]
  constructor
  · exact fun h => ⟨fun g hg => h g (.inl hg), fun g hg => h g (.inr hg)⟩
  · rintro ⟨hl, hr⟩ g (hg | hg)
    · exact hl g hg
    · exact hr g hg

theorem Gap.unended_glyphs (part : Part) (gs : List Glyph) : Unended (read part gs).glyphs := by
  fun_induction read part gs
  case case2 g gs hw ih => exact unended_cons.2 ⟨Glyph.isEnd_of_isWhitespace hw, ih⟩
  case case4 g hw h hs hopen ih | case5 g hw h hs _ hopen ih =>
    obtain ⟨hg, hh⟩ := Bool.and_eq_true_iff.1 hopen
    exact unended_cons.2 ⟨Glyph.isEnd_of_is hg, unended_cons.2 ⟨Glyph.isEnd_of_is hh, ih⟩⟩
  case case8 g gs he hn ih | case9 g gs he hn ih | case11 g he ih =>
    exact unended_cons.2 ⟨by simpa using he, ih⟩
  case case12 g he h hs hclose ih =>
    obtain ⟨-, hh⟩ := Bool.and_eq_true_iff.1 hclose
    exact unended_cons.2 ⟨by simpa using he, unended_cons.2 ⟨Glyph.isEnd_of_is hh, ih⟩⟩
  case case13 g he h hs hclose ih => exact unended_cons.2 ⟨by simpa using he, ih⟩
  all_goals exact unended_nil

theorem NumberTail.unended_glyphs (kind : Token.Kind) (gs : List Glyph) :
    Unended (read kind gs).glyphs := by
  fun_induction read kind gs
  case case2 kind g gs hg ih =>
    refine unended_cons.2 ⟨?_, ih⟩
    rw [Bool.or_eq_true, Bool.and_eq_true] at hg
    obtain hg | ⟨hg, -⟩ := hg
    · exact Glyph.isEnd_of_isDigit hg
    · exact Glyph.isEnd_of_is hg
  case case3 g gs hg hpoint ih => exact unended_cons.2 ⟨Glyph.isEnd_of_is hpoint, ih⟩
  case case7 kind g hpoint hk h hs hsign hg hmark ih =>
    have hmark := (Bool.and_eq_true_iff.1 hmark).1
    exact unended_cons.2 ⟨Glyph.isEnd_of_isAny hmark,
      unended_cons.2 ⟨Glyph.isEnd_of_isAny hsign, ih⟩⟩
  case case8 kind g hpoint hk h hs hsign hg hmark ih =>
    have hmark := (Bool.and_eq_true_iff.1 hmark).1
    exact unended_cons.2 ⟨Glyph.isEnd_of_isAny hmark, ih⟩
  all_goals exact unended_nil

theorem Lexeme.unended_glyphs (pipes : Bool) {g : Glyph} (hg : g.isEnd = false) (gs : List Glyph) :
    Unended (read pipes g gs).glyphs := by
  have hone : Unended [g] := unended_cons.2 ⟨hg, unended_nil⟩
  unfold read
  split
  · exact unended_cons.2 ⟨hg, NumberTail.unended_glyphs _ gs⟩
  split
  · refine unended_cons.2 ⟨hg, fun h hh => ?_⟩
    have hpart : isNamePart h := List.mem_takeWhile_imp hh
    simp only [isNamePart, Bool.or_eq_true] at hpart
    obtain (hd | hl) | hu := hpart
    · exact Glyph.isEnd_of_isDigit hd
    · exact Glyph.isEnd_of_isLetter hl
    · exact Glyph.isEnd_of_is hu
  split
  · exact hone
  split
  · exact unended_nil
  · cases gs with
    | nil => exact hone
    | cons h hs =>
      by_cases hp : isPair g h
      · simp only [symbol, hp, if_true]
        refine unended_cons.2 ⟨hg, unended_cons.2 ⟨?_, unended_nil⟩⟩
        rw [isPair, Bool.or_eq_true, Bool.and_eq_true] at hp
        obtain hp | ⟨-, hp⟩ := hp
        · exact Glyph.isEnd_of_is hp
        · exact Glyph.isEnd_of_isAny hp
      · simp only [symbol, hp]
        exact hone

namespace Scan

variable (pipes : Bool) (last : Position) {gs : List Glyph}

/-- A step takes no end mark. -/
theorem unended_taken (gs : List Glyph) :
    Unended ((read pipes last gs).gap ++ (read pipes last gs).lexeme) := by
  have hgap := Gap.unended_glyphs .blank gs
  refine unended_append.2 ?_
  unfold read
  dsimp only
  split
  · split
    · exact ⟨hgap, unended_nil⟩
    · next g rest _ =>
      by_cases he : g.isEnd
      · simp only [he, if_true]
        exact ⟨hgap, unended_nil⟩
      · simp only [he]
        exact ⟨hgap, Lexeme.unended_glyphs pipes (by simpa using he) rest⟩
  · exact ⟨hgap, unended_nil⟩

/-- A step does not go past an end mark. -/
theorem unended_iff (gs : List Glyph) : Unended gs ↔ Unended (read pipes last gs).rest := by
  have happend := congrArg Unended (glyphs_append_rest pipes last gs)
  rw [unended_append] at happend
  exact happend ▸ and_iff_right (unended_taken pipes last gs)

variable {pipes last}

/-- A step that finds no token has skipped a gap up to an end mark or to the end, and has looked at
it. -/
theorem exists_of_end (h : (read pipes last gs).outcome = .ok none) :
    ∃ gap rest, Gap.read .blank gs = ⟨gap, rest, true⟩ ∧
      read pipes last gs = ⟨gap, [], rest, .ok none, 1⟩ ∧
        (rest = [] ∨ ∃ g gs', rest = g :: gs' ∧ g.isEnd) := by
  rcases hgap : Gap.read .blank gs with ⟨gap, rest, closed⟩
  cases closed with
  | false => simp [read, hgap] at h
  | true =>
    cases rest with
    | nil => exact ⟨gap, [], rfl, by simp [read, hgap], .inl rfl⟩
    | cons g gs' =>
      cases he : g.isEnd with
      | true => exact ⟨gap, g :: gs', rfl, by simp [read, hgap, he], .inr ⟨g, gs', rfl, he⟩⟩
      | false => cases ho : (Lexeme.read pipes g gs').outcome <;>
          simp [read, hgap, he, ho, Except.map] at h

end Scan

/-! ### The end of the source -/

namespace Lexer

variable {l l' : Lexer}

/-- The lexer once it has been asked for a token, whatever came of it. -/
def asked (l : Lexer) : Lexer :=
  match fetch l with
  | .ok _ l' => l'
  | .error _ l' => l'

/-- The lexer once it has been asked for some tokens. -/
def after (l : Lexer) : Nat → Lexer
  | 0 => l
  | n + 1 => l.asked.after n

/-- The source has reported its end when it was asked for more, and all that it has delivered is
taken. -/
structure AtEnd (l : Lexer) : Prop where
  taken : l.ahead = []
  reported : l.ahead.length < l.fetched
  unbroken : l.failure = none

theorem asked_eq (l : Lexer) : l.asked = l.advance l.next := by
  unfold asked fetch
  dsimp only
  cases l.outcome l.next <;> rfl

theorem unended_after (l : Lexer) (n : Nat) : Unended l.ahead ↔ Unended (l.after n).ahead := by
  induction n generalizing l with
  | zero => rfl
  | succ n ih =>
    have hstep : Unended l.ahead ↔ Unended l.asked.ahead := by
      rw [asked_eq]
      exact Scan.unended_iff l.pipeBrackets l.last l.ahead
    exact hstep.trans (ih l.asked)

/-- There is no token when a step finds none and need not look past what a broken source
delivers. -/
theorem outcome_eq_none {s : Scan} (h : l.outcome s = .ok none) :
    s.outcome = .ok none ∧ (l.failure = none ∨ s.looked ≤ s.rest.length) := by
  unfold outcome at h
  split at h
  · split at h
    · cases h
    · next hlen => exact ⟨h, .inr (by omega)⟩
  · next hl => exact ⟨h, .inl hl⟩

/-- The end token says that the source has ended, unless there was an end mark ahead. -/
theorem atEnd_iff_of_fetch (h : fetch l = .ok none l') : l'.AtEnd ↔ Unended l.ahead := by
  unfold fetch at h
  dsimp only at h
  split at h
  · next token? ho =>
    obtain ⟨rfl, rfl⟩ := EStateM.Result.ok.inj h
    obtain ⟨hout, hfailure⟩ := outcome_eq_none ho
    obtain ⟨gap, rest, -, hnext, hrest⟩ := Scan.exists_of_end hout
    rw [Scan.unended_iff l.pipeBrackets l.last l.ahead]
    rw [hnext] at hfailure ⊢
    obtain rfl | ⟨g, rest, rfl, he⟩ := hrest
    · refine iff_of_true ⟨rfl, ?_, hfailure.resolve_right (by simp)⟩ unended_nil
      show 0 < max _ 1
      omega
    · refine iff_of_false (fun hend => List.cons_ne_nil g rest hend.taken) fun hun => ?_
      rw [unended_cons, he] at hun
      cases hun.1
  · cases h

/-- The tokens come to an end when the lexer, asked once more after the last, gives no token. -/
theorem exists_fetch_of_ending {p : Position} (h : l.tokens.ending = .ok p) :
    ∃ l', fetch (l.after l.tokens.ahead.length) = .ok none l' := by
  fun_induction tokens l
  case case1 l t l' hf _ rest ih =>
    have hasked : l.asked = l' := by rw [asked, hf]
    obtain ⟨l'', hl''⟩ := ih h
    refine ⟨l'', ?_⟩
    rw [← hl'', List.length_cons, after, hasked]
  case case2 l l' hf => exact ⟨l', hf⟩
  case case3 => cases h

end Lexer

theorem Source.unended_glyphs_iff (source : Source) : Unended source.glyphs ↔ 0 ∉ source.bytes := by
  have hmark (b : UInt8) : Char.ofUInt8 b = Glyph.endMark ↔ b = 0 := by
    rw [← Char.toNat_inj, ← UInt8.toNat_inj]
    show b.toUInt32.toNat = 0 ↔ b.toNat = 0
    rw [UInt8.toNat_toUInt32]
  have hfrom : ∀ (bytes : List UInt8) (p : Position),
      Unended (glyphsFrom p bytes) ↔ 0 ∉ bytes := by
    intro bytes
    induction bytes with
    | nil => exact fun _ => iff_of_true unended_nil List.not_mem_nil
    | cons b bytes ih =>
      intro p
      rw [glyphsFrom, unended_cons, ih, List.mem_cons, not_or, Glyph.isEnd, beq_eq_false_iff_ne,
        Ne, hmark, eq_comm]
  exact hfrom source.bytes source.position

/-- A formula compiles only if its tokens come to an end. -/
theorem Workspace.ending_of_compile {α : Type} [Arithmetic α] [Numeral α] {w : Workspace α}
    {settings : Settings} {source : Source} {e : Expr α}
    (h : (w.compile settings source).1.outcome = .ok e) :
    ∃ p, (Lexer.ofSource settings source).tokens.ending = .ok p := by
  obtain ⟨⟨e₀, rest⟩, -, h⟩ := Run.outcome_bind_eq_ok.1 h
  obtain ⟨e', -, h⟩ := Run.outcome_bind_eq_ok.1 h
  obtain ⟨⟨⟩, hfinish, -⟩ := Run.outcome_bind_eq_ok.1 h
  cases rest with
  | cons t rest => cases hfinish
  | nil =>
    cases hending : (Lexer.ofSource settings source).tokens.ending with
    | ok p => exact ⟨p, rfl⟩
    | error e =>
      rw [hending] at hfinish
      cases hfinish

/-- Whenever a lexer gives the end token, however often it has been asked before, the source has
reported its end and nothing of it is left, if and only if there is no NUL byte in it; and a formula
compiles only when its lexer has given the end token. -/
theorem Lexer.atEnd_iff (settings : Settings) (source : Source) :
    let start := ofSource settings source
    (∀ n l', fetch (start.after n) = .ok none l' → (l'.AtEnd ↔ 0 ∉ source.bytes)) ∧
      ∀ {α : Type} [Arithmetic α] [Numeral α] (w : Workspace α) (e : Expr α),
        (w.compile settings source).1.outcome = .ok e →
          ∃ l', fetch (start.after start.tokens.ahead.length) = .ok none l' ∧
            (l'.AtEnd ↔ 0 ∉ source.bytes) := by
  intro start
  have hfetch (n : Nat) (l' : Lexer) (h : fetch (start.after n) = .ok none l') :
      l'.AtEnd ↔ 0 ∉ source.bytes := by
    rw [atEnd_iff_of_fetch h, ← unended_after]
    exact source.unended_glyphs_iff
  refine ⟨hfetch, ?_⟩
  intro α _ _ w e h
  obtain ⟨p, hp⟩ := Workspace.ending_of_compile h
  obtain ⟨l', hl'⟩ := exists_fetch_of_ending hp
  exact ⟨l', hl', hfetch _ l' hl'⟩

theorem Lexer.atEnd_iff_sum :
    let source : Source := .ofString "1 + 2 // two"
    ∃ (l' : Lexer) (e : Expr ℚ), fetch ((ofSource {} source).after 3) = .ok none l' ∧
      ((Workspace.empty 0).compile {} source).1.outcome = .ok e ∧ l'.AtEnd := by
  intro source
  obtain ⟨e, he⟩ : ∃ e : Expr ℚ, ((Workspace.empty 0).compile {} source).1.outcome = .ok e := by
    have htext : ((Workspace.empty (0 : ℚ)).compile {} source).1.outcome.toOption.map Expr.text =
        some "3" := by decide +kernel
    obtain ⟨e, he, -⟩ := Option.map_eq_some_iff.1 htext
    exact ⟨e, ok_of_toOption he⟩
  have hlength : (ofSource {} source).tokens.ahead.length = 3 := by decide +kernel
  obtain ⟨hafter, hcompile⟩ := atEnd_iff {} source
  obtain ⟨l', hfetch, -⟩ := hcompile _ e he
  rw [hlength] at hfetch
  exact ⟨l', e, hfetch, he, (hafter 3 l' hfetch).2 (by decide +kernel)⟩

/-- A NUL byte hides the failure of a source: the text before it compiles. -/
theorem Workspace.compile_endMark :
    let source : Source := { bytes := [0x31, 0x20, 0x00], failure := some "disk on fire" }
    ((empty (0 : ℚ)).compile {} source).1.outcome.toOption.map Expr.text = some "1" ∧
      ∃ l', Lexer.fetch ((Lexer.ofSource {} source).after 1) = .ok none l' ∧ ¬ l'.AtEnd := by
  intro source
  refine ⟨by decide +kernel, _, rfl, fun hend => ?_⟩
  cases hend.unbroken

end Reckon
