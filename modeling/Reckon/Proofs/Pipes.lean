import Reckon.Proofs.Exact
import Reckon.Proofs.Indifference
import Reckon.Proofs.Locality
import Reckon.Proofs.RoundTrip

/-!
# Single pipes

Whether a single pipe is a bracket is a choice of the settings. If it is none, then it begins a
symbol, like other characters, and would form one symbol with an equals sign behind it. Two pipes in
a row are one symbol in either case. So the choice decides how a pipe before an equals sign is read,
and otherwise only whether the token of a pipe has contents, which nothing looks at.

## Main definitions

* `NoPipeEquals` — no pipe stands right before an equals sign.
* `Lexeme.bare`, `Scan.bare`, `Tokens.bare` — what is read, without the contents of symbols.

## Main statements

* `Lexer.bare_tokens` — the tokens are the same with either choice.
* `Workspace.compile_pipes` — and so is everything that comes of compiling a text.
-/

namespace Reckon

/-- No pipe stands right before an equals sign. -/
def NoPipeEquals (gs : List Glyph) : Prop := ¬ ['|', '='] <:+: gs.map (·.char)

theorem NoPipeEquals.of_append {gs hs : List Glyph} (h : NoPipeEquals (gs ++ hs)) :
    NoPipeEquals hs := fun hin => by
  refine h (hin.trans (List.IsSuffix.isInfix ?_))
  rw [List.map_append]
  exact List.suffix_append _ _

theorem NoPipeEquals.head {g h : Glyph} {hs : List Glyph} (hgs : NoPipeEquals (g :: h :: hs))
    (hg : g.char = '|') : h.char ≠ '=' := fun hh => hgs <| by
  rw [List.map_cons, List.map_cons, hg, hh]
  exact (List.prefix_append ['|', '='] _).isInfix

theorem ofUInt8_injective : Function.Injective Char.ofUInt8 := fun _ _ h =>
  UInt8.toUInt32_inj.1 (congrArg Char.val h)

theorem Source.noPipeEquals {source : Source} (h : ¬ [0x7C, 0x3D] <:+: source.bytes) :
    NoPipeEquals source.glyphs := by
  rw [NoPipeEquals, glyphs, map_char_glyphsFrom]
  intro hin
  obtain ⟨bytes, hbytes, hchars⟩ := List.infix_map_iff.1 hin
  obtain rfl : [0x7C, 0x3D] = bytes := List.map_injective_iff.2 ofUInt8_injective hchars
  exact h hbytes

/-! ### Tokens -/

namespace Lexeme

/-- A lexeme without the contents of a symbol. -/
def bare (lexeme : Lexeme) : Lexeme := { lexeme with outcome := lexeme.outcome.map Token.bare }

/-- The bracket that a single pipe is has contents, and the symbol has none. -/
theorem bare_bracket {g : Glyph} {gs : List Glyph} (hg : g.char = '|')
    (hpipe : nextIs (·.is '|') gs = false) (hgs : NoPipeEquals (g :: gs)) :
    (bracket g gs).bare = (symbol g gs).bare := by
  rcases g with ⟨c, p⟩
  obtain rfl : c = '|' := hg
  cases gs with
  | nil => rfl
  | cons h hs =>
    have hequals : h.is '=' = false := Glyph.is_eq_false (hgs.head rfl)
    have hother : h.char ≠ '|' := fun hc => by
      rcases h with ⟨c, q⟩
      obtain rfl : c = '|' := hc
      cases hpipe
    have hsingle : isPair ⟨'|', p⟩ h = false := by
      rw [isPair, hequals, Bool.false_or, beq_false_of_ne hother, Bool.false_and]
    rw [symbol, hsingle]
    rfl

theorem bare_read {g : Glyph} {gs : List Glyph} (h : NoPipeEquals (g :: gs)) :
    (read true g gs).bare = (read false g gs).bare := by
  unfold read
  split
  · rfl
  split
  · rfl
  cases hfixed : isBracket false g gs with
  | true =>
    have hbracket : isBracket true g gs := by simp_all [isBracket]
    rw [if_pos hbracket, if_pos rfl]
  | false =>
    rw [if_neg Bool.false_ne_true]
    split
    · next hbracket =>
      obtain ⟨hg, hpipe⟩ : g.is '|' ∧ nextIs (·.is '|') gs = false := by simp_all [isBracket]
      have hchar := Glyph.char_of_is hg
      have hvisible : g.isControl = false := by rw [Glyph.isControl, hchar]; rfl
      rw [hvisible, if_neg Bool.false_ne_true, bare_bracket hchar hpipe h]
    · rfl

end Lexeme

namespace Scan

/-- A step of a lexer without the contents of a symbol. -/
def bare (s : Scan) : Scan := { s with outcome := s.outcome.map (·.map Token.bare) }

theorem bare_lexeme (gap : List Glyph) (lexeme : Lexeme) :
    bare ⟨gap, lexeme.glyphs, lexeme.rest, lexeme.outcome.map some, lexeme.looked⟩ =
      ⟨gap, lexeme.bare.glyphs, lexeme.bare.rest, lexeme.bare.outcome.map some,
        lexeme.bare.looked⟩ := by
  rcases lexeme with ⟨glyphs, rest, e | t, looked⟩ <;> rfl

theorem bare_read (last : Position) {gs : List Glyph} (h : NoPipeEquals gs) :
    (read true last gs).bare = (read false last gs).bare := by
  have hrest : NoPipeEquals (Gap.read .blank gs).rest := by
    rw [← Gap.glyphs_append_rest .blank gs] at h
    exact h.of_append
  unfold read
  dsimp only
  split
  · split
    · rfl
    · next g rest hgap =>
      split
      · rfl
      · rw [bare_lexeme, bare_lexeme, Lexeme.bare_read (hgap ▸ hrest)]
  · rfl

/-- A step that gives a token takes at least one glyph. -/
theorem length_bare_rest_lt {pipes : Bool} {last : Position} {gs : List Glyph} {t : Token}
    (h : (read pipes last gs).bare.outcome = .ok (some t)) :
    (read pipes last gs).bare.rest.length < gs.length := by
  cases ho : (read pipes last gs).outcome with
  | error e =>
    rw [bare, ho] at h
    cases h
  | ok t? =>
    rw [bare, ho] at h
    obtain ⟨t, rfl, -⟩ := Option.map_eq_some_iff.1 (Except.ok.inj h)
    exact length_rest_lt ho

end Scan

/-- Tokens without the contents of the symbols among them. -/
def Tokens.bare (ts : Tokens) : Tokens := { ts with ahead := ts.ahead.map Token.bare }

namespace Lexer

theorem outcome_bare (l : Lexer) (s : Scan) :
    l.outcome s.bare = (l.outcome s).map (·.map Token.bare) := by
  unfold outcome Scan.bare
  cases l.failure with
  | none => rfl
  | some reason =>
    dsimp only
    split <;> rfl

theorem outcome_eq_some {l : Lexer} {s : Scan} {t : Token} (h : l.outcome s = .ok (some t)) :
    s.outcome = .ok (some t) := by
  unfold outcome at h
  split at h
  · split at h
    · cases h
    · exact h
  · exact h

/-- The tokens of a lexer without the contents of symbols, by its first step. -/
theorem bare_tokens_eq (l : Lexer) :
    l.tokens.bare =
      match l.outcome l.next.bare with
      | .ok (some t) => ⟨t :: (l.advance l.next.bare).tokens.bare.ahead,
          (l.advance l.next.bare).tokens.bare.ending⟩
      | .ok none => ⟨[], .ok (l.advance l.next.bare).position⟩
      | .error e => ⟨[], .error e⟩ := by
  have hadvance : l.advance l.next.bare = l.advance l.next := rfl
  rw [tokens_eq, outcome_bare, hadvance]
  cases l.outcome l.next with
  | error e => rfl
  | ok t? => cases t? <;> rfl

/-- A lexer for which single pipes are brackets or are not. -/
def withPipes (l : Lexer) (pipes : Bool) : Lexer := { l with pipeBrackets := pipes }

theorem outcome_withPipes (l : Lexer) (pipes : Bool) (s : Scan) :
    (l.withPipes pipes).outcome s = l.outcome s := rfl

theorem advance_withPipes (l : Lexer) (pipes : Bool) (s : Scan) :
    (l.withPipes pipes).advance s = (l.advance s).withPipes pipes := rfl

/-- If no pipe stands before an equals sign, then it makes no difference to the tokens whether
single pipes are brackets, except for the contents of symbols. -/
theorem bare_tokens (l : Lexer) (h : NoPipeEquals l.ahead) :
    (l.withPipes true).tokens.bare = (l.withPipes false).tokens.bare := by
  have hnext : (l.withPipes true).next.bare = (l.withPipes false).next.bare :=
    Scan.bare_read l.last h
  rw [bare_tokens_eq (l.withPipes true), bare_tokens_eq (l.withPipes false), hnext,
    outcome_withPipes, outcome_withPipes, advance_withPipes, advance_withPipes]
  generalize hs : (l.withPipes false).next.bare = s
  cases ho : l.outcome s with
  | error e => rfl
  | ok t? =>
    cases t? with
    | none => rfl
    | some t =>
      have hlength : s.rest.length < l.ahead.length := by
        rw [← hs] at ho ⊢
        exact Scan.length_bare_rest_lt (outcome_eq_some ho)
      have hrest : NoPipeEquals s.rest := by
        rw [← Scan.glyphs_append_rest false l.last l.ahead] at h
        rw [← hs]
        exact h.of_append
      have ih := bare_tokens (l.advance s) hrest
      simp only [ih]
termination_by l.ahead.length

end Lexer

/-- If no pipe stands right before an equals sign in a source, then it makes no difference whether
single pipes are brackets: it compiles to the same tree, or both times to an error of the same kind
with the same message and place. It is also read as the same tree before that tree is simplified,
and the same functions are entered. -/
theorem Workspace.compile_pipes {α : Type} [Arithmetic α] [Numeral α] (w : Workspace α)
    (named : Bool) (source : Source) (h : ¬ [0x7C, 0x3D] <:+: source.bytes) :
    let tokens (pipes : Bool) := (Lexer.ofSource ⟨pipes, named⟩ source).tokens
    let compiled (pipes : Bool) := w.compile ⟨pipes, named⟩ source
    SameOutcome (fun p q => p.1 = q.1) ((compiled true).2.parse (tokens true))
        ((compiled false).2.parse (tokens false)) ∧
      SameRun Eq (compiled true).1 (compiled false).1 ∧ (compiled true).2 = (compiled false).2 := by
  intro tokens compiled
  have htokens : (tokens true).bare = (tokens false).bare :=
    Lexer.bare_tokens (.ofSource {} source) (Source.noPipeEquals h)
  have hakin : (tokens true).Akin (tokens false) :=
    ⟨allAkin_iff.2 (congrArg Tokens.ahead htokens), (congrArg Tokens.ending htokens :)⟩
  refine ⟨?_, (compiled true).2.sameRun_read hakin, rfl⟩
  exact ((compiled true).2.sameOutcome_parse hakin).imp fun _ _ h => h.1

theorem Workspace.compile_pipes_nested :
    let source : Source := .ofString "0 || |3 - |2 * 4| |"
    let compiled (pipes : Bool) := ((empty (0 : ℚ)).compile ⟨pipes, true⟩ source).1
    SameRun Eq (compiled true) (compiled false) ∧
      (compiled false).outcome.toOption.map Expr.text = some "1" := by
  intro source compiled
  exact ⟨((empty (0 : ℚ)).compile_pipes true source (by decide +kernel)).2.1, by decide +kernel⟩

example :
    let compiled (pipes : Bool) :=
      ((Workspace.empty (0 : ℚ)).compile ⟨pipes, true⟩ (.ofString "|0 - 2|==2")).1
    (compiled true).outcome.toOption.map Expr.text = some "1" ∧
      (compiled false).outcome.toOption.map Expr.text = none := by
  decide +kernel

end Reckon
