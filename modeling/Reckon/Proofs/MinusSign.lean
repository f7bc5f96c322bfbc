import Reckon.Proofs.Compiling
import Reckon.Proofs.Locality
import Reckon.Proofs.Precedence
import Reckon.Proofs.Spacing

/-!
# Minus signs in texts

Blanks around a minus sign between an operand and a number do not change what a text means, unless
the number is the base of a power. The lexer cuts the text before the minus sign in the same way in
both cases, since the minus sign ends a word just as a blank does, and the text after the number as
well; so the tokens differ in the minus sign and the number alone.

In `x-2^2` the number `-2` is squared and added to `x`; in `x - 2^2` the square of `2` is taken off.

## Main definitions

* `Source.EndsOperand` — a text ends with an operand, and a minus sign may follow.
* `Source.BeginsUnsigned` — a text begins with a number without a sign.

## Main statements

* `Workspace.compile_minus` — with and without blanks a text compiles to trees of the same value.
-/

namespace Reckon

/-- The minus sign, without a place. -/
def Glyph.minus : Glyph := ⟨'-', default⟩

/-- The blank, without a place. -/
def Glyph.blank : Glyph := ⟨' ', default⟩

/-- The token that a minus sign is on its own. -/
def Token.minus : Token := Lexeme.symbolToken ['-'] default

/-- A number without a sign begins at a glyph. -/
def Lexeme.BeginsUnsigned (g : Glyph) (gs : List Glyph) : Prop :=
  g.isDigit ∨ (g.is '.' ∧ nextIs Glyph.isDigit gs)

/-- The classes of numbers are those of their tokens. -/
theorem NumberTail.kind_read {kind : Token.Kind} (gs : List Glyph)
    (h : kind = .integer ∨ kind = .decimal ∨ kind = .scientific) :
    (read kind gs).kind = .integer ∨ (read kind gs).kind = .decimal ∨
      (read kind gs).kind = .scientific := by
  fun_induction read kind gs
  all_goals first
    | exact h
    | exact .inr (.inr rfl)
    | (rename_i ih; exact ih h)
    | (rename_i ih; exact ih (.inr (.inl rfl)))
    | (rename_i ih; exact ih (.inr (.inr rfl)))

namespace Lexeme

variable {pipes : Bool} {g : Glyph} {gs : List Glyph} {t : Token}

theorem BeginsUnsigned.facts (h : BeginsUnsigned g gs) :
    g.isWhitespace = false ∧ g.char ≠ '/' ∧ g.isEnd = false ∧ g.isExponentMark = false ∧
      g.char ≠ '_' ∧ g.char ≠ '-' ∧ g.char ≠ '+' := by
  obtain hdigit | ⟨hpoint, -⟩ := h
  · obtain ⟨hblank, hend, hmark, hslash, hunder⟩ := Glyph.of_isDigit hdigit
    refine ⟨hblank, hslash, hend, hmark, hunder, ?_, ?_⟩ <;>
      · intro hc
        simp [Glyph.isDigit, hc] at hdigit
  · rcases g with ⟨c, p⟩
    obtain rfl : c = '.' := Glyph.char_of_is hpoint
    exact ⟨rfl, by simp, rfl, rfl, by simp, by simp, by simp⟩

theorem BeginsUnsigned.ends (h : BeginsUnsigned g gs) : Gap.Ends g gs ∧ g.isEnd = false := by
  obtain ⟨hblank, hslash, hend, -⟩ := h.facts
  refine ⟨⟨hblank, fun hs => ?_⟩, hend⟩
  simp [Glyph.is_eq_false hslash] at hs

theorem BeginsUnsigned.read (h : BeginsUnsigned g gs) : read pipes g gs = number g gs := by
  have hb : beginsNumber g gs := by
    obtain hdigit | ⟨hpoint, hnext⟩ := h
    · simp [beginsNumber, hdigit]
    · simp [beginsNumber, hpoint, hnext]
  rw [Lexeme.read, if_pos hb]

theorem BeginsUnsigned.read_minus (h : BeginsUnsigned g gs) :
    Lexeme.read pipes .minus (g :: gs) = number .minus (g :: gs) := by
  have hminus : Glyph.minus.is '-' := rfl
  have hb : beginsNumber .minus (g :: gs) := by
    obtain hdigit | ⟨hpoint, hnext⟩ := h
    · simp [beginsNumber, nextIs_cons, hminus, hdigit]
    · simp [beginsNumber, nextIs_cons, hminus, hpoint, hnext]
  rw [Lexeme.read, if_pos hb]

/-- The class of the number that begins at a glyph, so far. -/
theorem BeginsUnsigned.tail (h : BeginsUnsigned g gs) :
    NumberTail.read .integer (g :: gs) =
      (NumberTail.read (if g.is '.' then .decimal else .integer) gs).cons g := by
  rw [NumberTail.read.eq_def]
  obtain hdigit | ⟨hpoint, -⟩ := h
  · have hpoint : g.is '.' = false := Glyph.is_eq_false fun he => by
      rw [Glyph.isDigit, he] at hdigit
      cases hdigit
    simp [hdigit, hpoint]
  · obtain ⟨hdigit, hunder⟩ := Glyph.of_point hpoint
    simp [hdigit, hunder, hpoint]

/-- A token with a minus sign and the same without it, or two errors. -/
inductive Glued : Except Error Token → Except Error Token → Prop
  | ok {n n'} (h : n.Glues .minus n') : Glued (.ok n) (.ok n')
  | error (e e' : Error) : Glued (.error e) (.error e')

theorem Glued.exists_right {n : Token} {outcome : Except Error Token}
    (h : Glued (.ok n) outcome) : ∃ n', outcome = .ok n' ∧ n.Glues .minus n' := by
  cases h with
  | ok h => exact ⟨_, rfl, h⟩

theorem Glued.exists_left {n' : Token} {outcome : Except Error Token}
    (h : Glued outcome (.ok n')) : ∃ n, outcome = .ok n ∧ n.Glues .minus n' := by
  cases h with
  | ok h => exact ⟨_, rfl, h⟩

/-- A minus sign before a number is taken into it. -/
theorem number_minus (h : BeginsUnsigned g gs) :
    Glued (number .minus (g :: gs)).outcome (number g gs).outcome ∧
      (number .minus (g :: gs)).rest = (number g gs).rest := by
  obtain ⟨kind, hkind⟩ : ∃ kind, kind = if g.is '.' then Token.Kind.decimal else .integer :=
    ⟨_, rfl⟩
  have htail := h.tail
  rw [← hkind] at htail
  have hpoint : Glyph.minus.is '.' = false := rfl
  have hstart : kind = .integer ∨ kind = .decimal ∨ kind = .scientific := by
    rw [hkind]
    split <;> simp
  have hclass := NumberTail.kind_read gs hstart
  simp only [number, hpoint, Bool.false_eq_true, if_false, htail, ← hkind, NumberTail.rest_cons,
    NumberTail.glyphs_cons]
  refine ⟨?_, trivial⟩
  have hfault : ((NumberTail.read kind gs).cons g).fault = (NumberTail.read kind gs).fault := rfl
  rw [hfault]
  cases (NumberTail.read kind gs).fault with
  | some fault => cases fault <;> exact .error _ _
  | none =>
    obtain ⟨-, -, -, hmark, hunder, hminus, hplus⟩ := h.facts
    refine .ok ⟨?_, rfl, ?_, ?_, ?_⟩
    · rcases hclass with hk | hk | hk <;> simp [Token.isNumber, NumberTail.cons, hk]
    · rcases hclass with hk | hk | hk <;> simp [Token.isNumber, hk]
    · simp [numberSource, Glyph.minus, Glyph.isExponentMark, Glyph.isAny, Glyph.is]
    · simp [numberSource, hmark, hunder, hminus, hplus]

end Lexeme

namespace Tokenized

variable {pipes : Bool} {g : Glyph} {gs : List Glyph} {ts : List Token}

/-- A minus sign between blanks is a token. -/
theorem spaced_iff {D : List Glyph} : Tokenized pipes (.blank :: .minus :: .blank :: D) ts ↔
    ∃ us, ts = .minus :: us ∧ Tokenized pipes D us := by
  have hread : (Lexeme.read pipes .minus (.blank :: D)).outcome = .ok .minus ∧
      (Lexeme.read pipes .minus (.blank :: D)).rest = .blank :: D := by
    cases pipes <;> exact ⟨rfl, rfl⟩
  have hends : Gap.Ends .minus (.blank :: D) := ⟨rfl, fun h => by cases h⟩
  rw [iff_of_isWhitespace rfl, iff_of_ends hends rfl, hread.1, hread.2]
  constructor
  · rintro ⟨t, us, rfl, ht, hus⟩
    obtain rfl := Except.ok.inj ht
    exact ⟨us, rfl, (iff_of_isWhitespace rfl).1 hus⟩
  · rintro ⟨us, rfl, hus⟩
    exact ⟨_, us, rfl, rfl, (iff_of_isWhitespace rfl).2 hus⟩

theorem number_iff (hg : Lexeme.BeginsUnsigned g gs) : Tokenized pipes (g :: gs) ts ↔
    ∃ n us, ts = n :: us ∧ (Lexeme.number g gs).outcome = .ok n ∧
      Tokenized pipes (Lexeme.number g gs).rest us := by
  rw [iff_of_ends hg.ends.1 hg.ends.2, hg.read]

theorem minus_number_iff (hg : Lexeme.BeginsUnsigned g gs) :
    Tokenized pipes (.minus :: g :: gs) ts ↔
      ∃ n us, ts = n :: us ∧ (Lexeme.number .minus (g :: gs)).outcome = .ok n ∧
        Tokenized pipes (Lexeme.number g gs).rest us := by
  have hends : Gap.Ends .minus (g :: gs) := ⟨rfl, fun h => by cases h⟩
  rw [iff_of_ends hends rfl, hg.read_minus, (Lexeme.number_minus hg).2]

/-- A number with a minus sign is also a number without it. -/
theorem unglue (hg : Lexeme.BeginsUnsigned g gs) (h : Tokenized pipes (.minus :: g :: gs) ts) :
    ∃ n n' us, ts = n :: us ∧ n.Glues .minus n' ∧ Tokenized pipes (g :: gs) (n' :: us) := by
  obtain ⟨n, us, rfl, hn, hus⟩ := (minus_number_iff hg).1 h
  have hglued := (Lexeme.number_minus hg).1
  rw [hn] at hglued
  obtain ⟨n', hn', hglues⟩ := hglued.exists_right
  exact ⟨n, n', us, rfl, hglues, (number_iff hg).2 ⟨n', us, rfl, hn', hus⟩⟩

/-- A number is also a number with a minus sign. -/
theorem glue (hg : Lexeme.BeginsUnsigned g gs) (h : Tokenized pipes (g :: gs) ts) :
    ∃ n n' us, ts = n' :: us ∧ n.Glues .minus n' ∧
      Tokenized pipes (.minus :: g :: gs) (n :: us) := by
  obtain ⟨n', us, rfl, hn', hus⟩ := (number_iff hg).1 h
  have hglued := (Lexeme.number_minus hg).1
  rw [hn'] at hglued
  obtain ⟨n, hn, hglues⟩ := hglued.exists_left
  exact ⟨n, n', us, rfl, hglues, (minus_number_iff hg).2 ⟨n, us, rfl, hn, hus⟩⟩

end Tokenized

/-! ### Texts -/

section Texts

/-- A text begins with a number without a sign. -/
def Source.BeginsUnsigned (bytes : List UInt8) : Prop :=
  ∃ g gs, plain bytes = g :: gs ∧ Lexeme.BeginsUnsigned g gs

/-- A text ends with a token that closes an operand, and a minus sign (the byte 45) after the text
is one more token. -/
def Source.EndsOperand (settings : Settings) (bytes : List UInt8) : Prop :=
  ∃ ts t, (t.isIdentifier ∨ t.isNumber ∨ t.isSymbol ")" ∨ t.isSymbol "|") ∧
    (∃ p, settings.tokens bytes = ⟨ts ++ [t], .ok p⟩) ∧
      ∃ m p, settings.tokens (bytes ++ [45]) = ⟨ts ++ [t, m], .ok p⟩

theorem Source.BeginsUnsigned.append {bytes : List UInt8} (h : BeginsUnsigned bytes)
    (bytes' : List UInt8) : BeginsUnsigned (bytes ++ bytes') := by
  obtain ⟨g, gs, hplain, hg⟩ := h
  refine ⟨g, gs ++ plain bytes', by rw [plain_append, hplain, List.cons_append], ?_⟩
  refine hg.imp_right fun ⟨hpoint, hnext⟩ => ⟨hpoint, ?_⟩
  cases gs with
  | nil => cases hnext
  | cons h gs => exact hnext

/-- The tokens of a text that a minus sign follows, apart from their places. -/
theorem Source.EndsOperand.exists_tokens {settings : Settings} {A : List UInt8}
    (h : EndsOperand settings A) :
    ∃ us u, (∀ u ∈ us.getLast?, u.isSymbol "+" = false) ∧
      Tokenized settings.pipeBrackets (plain A) us ∧
        Tokenized settings.pipeBrackets (plain A ++ [.minus]) (us ++ [u]) := by
  obtain ⟨ts, t, hcloses, ⟨p, htokens⟩, m, q, hminus⟩ := h
  have hA := tokenized_iff.2 ⟨_, p, htokens, rfl⟩
  have hAm := tokenized_iff.2 ⟨_, q, hminus, rfl⟩
  rw [plain_append, List.map_append] at hAm
  rw [List.map_append] at hA
  refine ⟨_, m.unplaced, ?_, hA, by rw [List.append_assoc]; exact hAm⟩
  intro u hu
  obtain rfl : t.unplaced = u := by simpa using hu
  have ht := t.alike_unplaced
  rcases hcloses with hid | hnumber | hsymbol | hsymbol
  · exact Token.isSymbol_of_isIdentifier (ht.isIdentifier hid) _
  · exact Token.isSymbol_of_isNumber (ht.isNumber hnumber) _
  · exact Token.isSymbol_eq_false (ht.isSymbol hsymbol) (by decide)
  · exact Token.isSymbol_eq_false (ht.isSymbol hsymbol) (by decide)

theorem Settings.tokens_eq {settings : Settings} {bytes : List UInt8} {ts : List Token}
    {p : Position} (hts : (settings.tokens bytes).ahead = ts)
    (hp : (settings.tokens bytes).ending.toOption = some p) :
    settings.tokens bytes = ⟨ts, .ok p⟩ := by
  subst hts
  rw [← ok_of_toOption hp]

/-- A name is an operand. -/
theorem Source.endsOperand_name : EndsOperand {} (ofString "x").bytes := by
  refine ⟨[], ⟨.identifier, "x", "", "x", ⟨1, 1⟩⟩, .inl rfl, ⟨⟨1, 1⟩, Settings.tokens_eq ?_ ?_⟩,
    ⟨.symbol, "", "-", "-", ⟨1, 2⟩⟩, ⟨1, 2⟩, Settings.tokens_eq ?_ ?_⟩
  all_goals decide +kernel

variable {settings : Settings} {D : List UInt8}

theorem FreeOfPower.of_tokenized {n : Token} {vs : List Token}
    (h : FreeOfPower (settings.tokens D).ahead.tail)
    (hD : Tokenized settings.pipeBrackets (Source.plain D) (n :: vs)) : FreeOfPower vs := by
  obtain ⟨ts, p, htokens, hts⟩ := tokenized_iff.1 hD
  obtain ⟨t, ts, rfl, -, rfl⟩ := List.map_eq_cons_iff.1 hts
  rw [htokens] at h
  exact h.of_alike (allAlike_unplaced ts)

variable {us : List Token} {u : Token} {A : List UInt8}
variable (hA : Tokenized settings.pipeBrackets (Source.plain A) us)
variable (hminus : Tokenized settings.pipeBrackets (Source.plain A ++ [.minus]) (us ++ [u]))
include hA hminus

/-- The tokens around a minus sign that a number takes in. -/
theorem separates_of_tokenized (hD : Source.BeginsUnsigned D)
    (hpower : FreeOfPower (settings.tokens D).ahead.tail) {ts : List Token}
    (h : Tokenized settings.pipeBrackets (Source.plain (A ++ 45 :: D)) ts) :
    ∃ vs vs', ts = us ++ vs ∧ Separates vs vs' ∧
      Tokenized settings.pipeBrackets (Source.plain (A ++ 32 :: 45 :: 32 :: D)) (us ++ vs') := by
  obtain ⟨g, gs, hplain, hg⟩ := hD
  rw [Source.plain_append] at h
  obtain ⟨vs, rfl, hvs⟩ := (Tokenized.append_iff rfl hA hminus (stops_cons rfl _)).1 h
  have hvs : Tokenized settings.pipeBrackets (.minus :: g :: gs) vs := hplain ▸ hvs
  obtain ⟨n, n', vs, rfl, hglues, hn⟩ := hvs.unglue hg
  rw [← hplain] at hn
  refine ⟨_, _, rfl, .intro hglues (AllAlike.refl vs) (hpower.of_tokenized hn), ?_⟩
  rw [Source.plain_append]
  refine (Tokenized.append_iff rfl hA hminus ?_).2 ⟨_, rfl, Tokenized.spaced_iff.2 ⟨_, rfl, hn⟩⟩
  rintro y ⟨⟩
  exact .inr rfl

/-- The tokens around a minus sign between blanks. -/
theorem joins_of_tokenized (hD : Source.BeginsUnsigned D)
    (hpower : FreeOfPower (settings.tokens D).ahead.tail) {ts : List Token}
    (h : Tokenized settings.pipeBrackets (Source.plain (A ++ 32 :: 45 :: 32 :: D)) ts) :
    ∃ vs vs', ts = us ++ vs' ∧ Separates vs vs' ∧
      Tokenized settings.pipeBrackets (Source.plain (A ++ 45 :: D)) (us ++ vs) := by
  obtain ⟨g, gs, hplain, hg⟩ := hD
  rw [Source.plain_append] at h
  have hblank : Stops (Source.plain (32 :: 45 :: 32 :: D)) := by
    rintro y ⟨⟩
    exact .inr rfl
  obtain ⟨vs, rfl, hvs⟩ := (Tokenized.append_iff rfl hA hminus hblank).1 h
  obtain ⟨vs, rfl, hn⟩ := Tokenized.spaced_iff.1 hvs
  have hn : Tokenized settings.pipeBrackets (g :: gs) vs := hplain ▸ hn
  obtain ⟨n, n', vs, rfl, hglues, hglued⟩ := hn.glue hg
  rw [← hplain] at hn hglued
  refine ⟨_, _, rfl, .intro hglues (AllAlike.refl vs) (hpower.of_tokenized hn), ?_⟩
  rw [Source.plain_append]
  exact (Tokenized.append_iff rfl hA hminus (stops_cons rfl _)).2 ⟨_, rfl, hglued⟩

end Texts

variable {α : Type} [Arithmetic α] [Numeral α] [SignedNumeral α]

/-- A minus sign between an operand and a number means the same with and without blanks (the bytes
32) around it, unless the number is the base of a power: either both texts fail to compile, or both
compile, to trees that have the same value or the same error whatever the values of the variables
are. -/
theorem Workspace.compile_minus (w : Workspace α) {settings : Settings} {A n C : List UInt8}
    (hA : Source.EndsOperand settings A) (hn : Source.BeginsUnsigned n)
    (hpower : FreeOfPower (settings.tokens (n ++ C)).ahead.tail) :
    let glued := (w.compile settings { bytes := A ++ 45 :: (n ++ C) }).1.outcome
    let spaced := (w.compile settings { bytes := A ++ 32 :: 45 :: 32 :: (n ++ C) }).1.outcome
    (∃ x y, glued = .error x ∧ spaced = .error y) ∨
      ∃ e e', glued = .ok e ∧ spaced = .ok e' ∧
        ∀ s : Store α, (e.evaluate s).outcome = (e'.evaluate s).outcome := by
  intro glued spaced
  obtain ⟨us, u, hplus, hus, hminus⟩ := hA.exists_tokens
  have hD := hn.append C
  -- The number is taken apart in the tokens of the one text, and put together in those of the other.
  have hforth : ∀ e, glued = .ok e → ∃ e', spaced = .ok e' ∧ Expr.Images id e e' := by
    intro e he
    obtain ⟨ts, e₀, hts, hread, hsimplify⟩ := compile_eq_ok_iff.1 he
    obtain ⟨vs, vs', rfl, hvs, hts'⟩ := separates_of_tokenized hus hminus hD hpower hts
    obtain ⟨e₀', hread', hmatches⟩ := hread.separated hplus (w.prepared settings).store hvs
    obtain ⟨e', hsimplify', himages⟩ := hmatches.exists_of_eq_ok hsimplify
    exact ⟨e', compile_eq_ok_iff.2 ⟨_, e₀', hts', hread', hsimplify'⟩, himages⟩
  have hback : ∀ e', spaced = .ok e' → ∃ e, glued = .ok e ∧ Expr.Images id e e' := by
    intro e' he
    obtain ⟨ts, e₀', hts, hread, hsimplify⟩ := compile_eq_ok_iff.1 he
    obtain ⟨vs, vs', rfl, hvs, hts'⟩ := joins_of_tokenized hus hminus hD hpower hts
    obtain ⟨e₀, hread', hmatches⟩ := hread.joined hplus (w.prepared settings).store hvs
    obtain ⟨e, hsimplify', himages⟩ := hmatches.symm.exists_of_eq_ok hsimplify
    exact ⟨e, compile_eq_ok_iff.2 ⟨_, e₀, hts', hread', hsimplify'⟩, himages.symm⟩
  cases hglued : glued with
  | ok e =>
    obtain ⟨e', hspaced, himages⟩ := hforth e hglued
    refine .inr ⟨e, e', rfl, hspaced, fun s => ?_⟩
    simpa [Run.Agree] using himages.agree s
  | error x =>
    cases hspaced : spaced with
    | ok e' =>
      obtain ⟨e, he, -⟩ := hback e' hspaced
      rw [hglued] at he
      cases he
    | error y => exact .inl ⟨x, y, rfl, rfl⟩

/-- A minus sign before a product of which the first operand has a quantifier. -/
theorem Workspace.compile_minus_product :
    let scope : Scope ℚ := ({} : Scope ℚ).bindVariable "x" ⟨"x", 0⟩
    let w : Workspace ℚ := ⟨⟨#[⟨10, false⟩], 0⟩, scope⟩
    let A := (Source.ofString "x").bytes
    let n := (Source.ofString "2.5").bytes
    let C := (Source.ofString "k / 5 * x^2 -1").bytes
    let glued := (w.compile {} { bytes := A ++ 45 :: (n ++ C) }).1.outcome
    let spaced := (w.compile {} { bytes := A ++ 32 :: 45 :: 32 :: (n ++ C) }).1.outcome
    Source.EndsOperand {} A ∧ Source.BeginsUnsigned n ∧
      FreeOfPower (({} : Settings).tokens (n ++ C)).ahead.tail ∧
        glued.toOption.map Expr.text = some "(-1 + (x + (-500 * (x ^ 2))))" ∧
          spaced.toOption.map Expr.text = some "(-1 + (x - (500 * (x ^ 2))))" ∧
            ∃ e e', glued = .ok e ∧ spaced = .ok e' ∧
              ∀ s : Store ℚ, (e.evaluate s).outcome = (e'.evaluate s).outcome := by
  intro scope w A n C glued spaced
  have hA : Source.EndsOperand {} A := Source.endsOperand_name
  have hn : Source.BeginsUnsigned n := ⟨_, _, rfl, .inl (by decide)⟩
  have hpower : FreeOfPower (({} : Settings).tokens (n ++ C)).ahead.tail := by
    decide +kernel
  have htext : glued.toOption.map Expr.text = some "(-1 + (x + (-500 * (x ^ 2))))" := by
    decide +kernel
  refine ⟨hA, hn, hpower, htext, by decide +kernel, ?_⟩
  obtain ⟨x, -, hx, -⟩ | h := compile_minus w hA hn hpower
  · rw [show glued = .error x from hx] at htext
    cases htext
  · exact h

/-- A number that is the base of a power takes the minus sign into the base, unless there is a blank
between them. -/
theorem Workspace.compile_minus_power :
    let scope : Scope ℚ := ({} : Scope ℚ).bindVariable "x" ⟨"x", 0⟩
    let w : Workspace ℚ := ⟨⟨#[⟨10, false⟩], 0⟩, scope⟩
    let A := (Source.ofString "x").bytes
    let n := (Source.ofString "2").bytes
    let C := (Source.ofString "^2").bytes
    let value (bytes : List UInt8) : Option ℚ := do
      let e ← (w.compile {} { bytes }).1.outcome.toOption
      (e.evaluate w.store).outcome.toOption
    Source.EndsOperand {} A ∧ Source.BeginsUnsigned n ∧
      value (A ++ 45 :: (n ++ C)) = some 14 ∧ value (A ++ 32 :: 45 :: 32 :: (n ++ C)) = some 6 := by
  intro scope w A n C value
  refine ⟨Source.endsOperand_name, ⟨_, _, rfl, .inl (by decide)⟩, ?_, ?_⟩ <;> decide +kernel

end Reckon
