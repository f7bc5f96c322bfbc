import Reckon.Compile
import Mathlib.Data.List.Forall2

/-!
# The contents of symbols

The grammar tells symbols apart by their triggers, and a message shows the source of a token. Nothing
looks at the contents of a symbol. So two lists of tokens that differ in the contents of symbols
alone are read as the same tree, or with errors that cannot be told apart.

## Main definitions

* `Token.Akin` — tokens that differ at most in the contents of a symbol.
* `Error.Akin` — errors that are of one kind, say the same and point to the same place.
* `SameOutcome`, `SameRun` — two results that are related, or two errors that are akin.

## Main statements

* `Grammar.sameOutcome_expression` — the contents of symbols make no difference to the grammar.
* `Workspace.sameRun_read` — nor do they to the tree that a text is compiled to.
-/

namespace Reckon

variable {α β γ : Type}

/-! ### Tokens and errors -/

/-- A token without its contents, if it is a symbol. -/
def Token.bare (t : Token) : Token :=
  { t with contents := if t.isAnySymbol then "" else t.contents }

/-- Two tokens that differ at most in their contents, and in these only if they are symbols. -/
def Token.Akin (t u : Token) : Prop := t.bare = u.bare

/-- Two lists of tokens that differ at most in the contents of symbols. -/
abbrev AllAkin (ts us : List Token) : Prop := List.Forall₂ Token.Akin ts us

/-- Two errors that are of one kind, with the same message and the same place. -/
structure Error.Akin (a b : Error) : Prop where
  kind : a.kind = b.kind
  message : a.message = b.message
  position : a.position = b.position

@[refl] theorem Error.Akin.refl (e : Error) : e.Akin e := ⟨rfl, rfl, rfl⟩

theorem Error.message_unexpectedToken (t : Token) (expected : Expectation) :
    (unexpectedToken t expected).message =
      "Unexpected token: " ++ t.describe ++ ". " ++ expected.text := rfl

namespace Token.Akin

variable {t u : Token}

@[refl] theorem refl (t : Token) : t.Akin t := rfl

theorem kind (h : t.Akin u) : t.kind = u.kind := (congrArg Token.kind h :)

theorem trigger (h : t.Akin u) : t.trigger = u.trigger := (congrArg Token.trigger h :)

theorem source (h : t.Akin u) : t.source = u.source := (congrArg Token.source h :)

theorem position (h : t.Akin u) : t.position = u.position := (congrArg Token.position h :)

theorem isSymbol (h : t.Akin u) (s : String) : t.isSymbol s = u.isSymbol s := by
  rw [Token.isSymbol, Token.isSymbol, matchesTrigger, matchesTrigger, h.kind, h.trigger]

theorem isAnySymbol (h : t.Akin u) : t.isAnySymbol = u.isAnySymbol := by
  rw [Token.isAnySymbol, Token.isAnySymbol, h.kind]

theorem isNumber (h : t.Akin u) : t.isNumber = u.isNumber := by
  rw [Token.isNumber, Token.isNumber, h.kind]

theorem isIdentifier (h : t.Akin u) : t.isIdentifier = u.isIdentifier := by
  rw [Token.isIdentifier, Token.isIdentifier, h.kind]

theorem describe (h : t.Akin u) : t.describe = u.describe := by
  rw [Token.describe, Token.describe, isEnd, isEnd, h.kind, h.source]

theorem contents (h : t.Akin u) (ht : t.kind ≠ .symbol) : t.contents = u.contents := by
  have hcontents := congrArg Token.contents h
  have hany : t.isAnySymbol = false := by rw [Token.isAnySymbol, beq_eq_false_iff_ne]; exact ht
  simpa only [bare, ← h.isAnySymbol, hany, Bool.false_eq_true, if_false] using hcontents

theorem contents_of_isNumber (h : t.Akin u) (ht : t.isNumber) : t.contents = u.contents :=
  h.contents fun hk => by simp [Token.isNumber, hk] at ht

theorem contents_of_isIdentifier (h : t.Akin u) (ht : t.isIdentifier) :
    t.contents = u.contents :=
  h.contents fun hk => by simp [Token.isIdentifier, hk] at ht

theorem isNegative (h : t.Akin u) : Grammar.isNegative t = Grammar.isNegative u := by
  rw [Grammar.isNegative, Grammar.isNegative, ← h.isNumber]
  cases hn : t.isNumber with
  | false => rw [Bool.false_and, Bool.false_and]
  | true => rw [h.contents_of_isNumber hn]

theorem unexpected (h : t.Akin u) (expected : Expectation) :
    Error.Akin (.unexpectedToken t expected) (.unexpectedToken u expected) where
  kind := rfl
  message := by rw [Error.message_unexpectedToken, Error.message_unexpectedToken, h.describe]
  position := congrArg some h.position

end Token.Akin

theorem AllAkin.tail {ts us : List Token} (h : AllAkin ts us) : AllAkin ts.tail us.tail := by
  cases h with
  | nil => exact .nil
  | cons _ hs => exact hs

theorem allAkin_iff {ts us : List Token} : AllAkin ts us ↔ ts.map Token.bare = us.map Token.bare := by
  rw [← List.forall₂_eq_eq_eq, List.forall₂_map_left_iff, List.forall₂_map_right_iff]
  rfl

/-! ### Outcomes -/

/-- Two outcomes that do not differ but as `R` says: related results, or errors that are akin. -/
inductive SameOutcome (R : β → γ → Prop) : Except Error β → Except Error γ → Prop
  | ok {b c} (h : R b c) : SameOutcome R (.ok b) (.ok c)
  | error {a b} (h : a.Akin b) : SameOutcome R (.error a) (.error b)

namespace SameOutcome

variable {β' γ' : Type} {R : β → γ → Prop} {S : β' → γ' → Prop} {x : Except Error β}
  {y : Except Error γ}

theorem of_eq {R : β → β → Prop} (hR : ∀ b, R b b) (x : Except Error β) : SameOutcome R x x := by
  cases x with
  | ok b => exact .ok (hR b)
  | error e => exact .error (.refl e)

/-- Steps with the same outcomes one after another have the same outcome. -/
theorem bind {f : β → Except Error β'} {g : γ → Except Error γ'} (h : SameOutcome R x y)
    (hf : ∀ b c, R b c → SameOutcome S (f b) (g c)) : SameOutcome S (x >>= f) (y >>= g) := by
  cases h with
  | ok h => exact hf _ _ h
  | error h => exact .error h

theorem imp {R' : β → γ → Prop} (h : SameOutcome R x y) (hR : ∀ b c, R b c → R' b c) :
    SameOutcome R' x y := by
  cases h with
  | ok h => exact .ok (hR _ _ h)
  | error h => exact .error h

theorem map {f : β → β'} {g : γ → γ'} (h : SameOutcome R x y)
    (hf : ∀ b c, R b c → S (f b) (g c)) : SameOutcome S (x.map f) (y.map g) := by
  cases h with
  | ok h => exact .ok (hf _ _ h)
  | error h => exact .error h

theorem unexpected {t u : Token} (h : t.Akin u) (expected : Expectation) :
    SameOutcome R (.error (.unexpectedToken t expected)) (.error (.unexpectedToken u expected)) :=
  .error (h.unexpected expected)

end SameOutcome

/-- Two runs that enter the same functions and have the same outcome, but for what `R` says. -/
def SameRun (R : β → γ → Prop) (x : Run β) (y : Run γ) : Prop :=
  SameOutcome R x.outcome y.outcome ∧ x.entered = y.entered

namespace SameRun

variable {β' γ' : Type} {R : β → γ → Prop} {S : β' → γ' → Prop}

theorem ofExcept {x : Except Error β} {y : Except Error γ} (h : SameOutcome R x y) :
    SameRun R (.ofExcept x) (.ofExcept y) := ⟨h, rfl⟩

theorem refl (x : Run β) : SameRun Eq x x := ⟨.of_eq (fun _ => rfl) _, rfl⟩

theorem bind {x : Run β} {y : Run γ} {f : β → Run β'} {g : γ → Run γ'} (h : SameRun R x y)
    (hf : ∀ b c, R b c → SameRun S (f b) (g c)) : SameRun S (x >>= f) (y >>= g) := by
  rcases x with ⟨x, entered⟩
  rcases y with ⟨y, _⟩
  obtain ⟨houtcome, rfl⟩ := h
  cases houtcome with
  | ok h =>
    obtain ⟨houtcome, hentered⟩ := hf _ _ h
    exact ⟨houtcome, congrArg (entered ++ ·) hentered⟩
  | error h => exact ⟨.error h, rfl⟩

end SameRun

/-! ### Rules -/

namespace Grammar

variable {ending : Except Error Position} {ts us : List Token}

/-- The same has been read, and what is left differs at most in the contents of symbols. -/
def Parse.Akin (p : Parse β ts) (q : Parse β us) : Prop :=
  p.value = q.value ∧ AllAkin p.rest q.rest

theorem sameOutcome_front (h : AllAkin ts us) :
    SameOutcome Token.Akin (front ending ts) (front ending us) := by
  cases h with
  | nil => exact .of_eq .refl _
  | cons h _ => exact .ok h

theorem sameOutcome_refuse {R : β → γ → Prop} (h : AllAkin ts us) (expected : Expectation) :
    SameOutcome R (refuse ending ts expected) (refuse ending us expected) :=
  (sameOutcome_front h).bind fun _ _ h => .unexpected h expected

theorem sameOutcome_expect (h : AllAkin ts us) (s : String) :
    SameOutcome Parse.Akin (expect ending s ts) (expect ending s us) := by
  cases h with
  | nil => exact sameOutcome_refuse .nil _
  | cons h hs =>
    simp only [expect, h.isSymbol]
    split
    · exact .ok ⟨rfl, hs⟩
    · exact sameOutcome_refuse (.cons h hs) _

theorem sameOutcome_operator? (r : Rank) (h : AllAkin ts us) :
    SameOutcome (Option.Rel Parse.Akin) (operator? ending r ts) (operator? ending r us) := by
  cases h with
  | nil => exact .map (.of_eq (R := Eq) (fun _ => rfl) ending) fun _ _ _ => .none
  | cons h hs =>
    simp only [operator?, h.isAnySymbol, h.trigger]
    split
    · refine .ok ?_
      cases r.operators.lookup _ with
      | none => exact .none
      | some op => exact .some ⟨rfl, hs⟩
    · exact .ok .none

theorem sameOutcome_literal [Numeral α] (h : AllAkin ts us) :
    SameOutcome Parse.Akin (literal (α := α) ending ts) (literal ending us) := by
  cases h with
  | nil => exact sameOutcome_refuse .nil _
  | cons h hs =>
    simp only [literal, ← h.isNumber]
    split
    · next hn =>
      rw [← h.contents_of_isNumber hn, h.source, h.position]
      cases Decimal.read? _ with
      | none => exact .error (.refl _)
      | some d =>
        cases hs with
        | nil => exact .map (.of_eq (R := Eq) (fun _ => rfl) ending) fun _ _ _ => ⟨rfl, .nil⟩
        | cons h' hs =>
          simp only [← h'.isIdentifier]
          split
          · next hi =>
            rw [← h'.contents_of_isIdentifier hi]
            cases Quantifier.named? _ with
            | none => exact .unexpected h' _
            | some q => exact .ok ⟨rfl, hs⟩
          · exact .ok ⟨rfl, .cons h' hs⟩
    · exact .unexpected h _

/-- Arguments are the same, and what is left differs at most in the contents of symbols. -/
def ArgumentsAkin (p : List (Expr α) × { rest : List Token // rest.length ≤ ts.length })
    (q : List (Expr α) × { rest : List Token // rest.length ≤ us.length }) : Prop :=
  p.1 = q.1 ∧ AllAkin p.2.1 q.2.1

variable [Arithmetic α] [Numeral α] {scope : Scope α}

-- The recursion is that of the grammar, and ends for the same reason.
mutual

theorem sameOutcome_expression {ts us : List Token} (h : AllAkin ts us) :
    SameOutcome Parse.Akin (expression scope ending ts) (expression scope ending us) := by
  rw [expression, expression]
  refine (sameOutcome_chain .boolean h).bind fun c c' hc => ?_
  have := c.shorter
  refine (sameOutcome_front hc.2).bind fun next next' hnext => ?_
  rw [hnext.isSymbol]
  split
  · refine (sameOutcome_expect hc.2 _).bind fun mark mark' hmark => ?_
    have := mark.shorter
    refine (sameOutcome_expression hmark.2).bind fun a a' ha => ?_
    have := a.shorter
    refine (sameOutcome_expect ha.2 _).bind fun colon colon' hcolon => ?_
    have := colon.shorter
    refine (sameOutcome_expression hcolon.2).bind fun b b' hb => ?_
    exact .ok ⟨by simp only [hc.1, ha.1, hb.1], hb.2⟩
  · exact .ok hc
termination_by 16 * ts.length + 14
decreasing_by all_goals grind [depth, Rank.number]

theorem sameOutcome_chain (r : Rank) {ts us : List Token} (h : AllAkin ts us) :
    SameOutcome Parse.Akin (chain scope ending r ts) (chain scope ending r us) := by
  rw [chain, chain]
  refine (sameOutcome_operand r h).bind fun left left' hleft => ?_
  have := left.shorter
  refine (sameOutcome_operator? r hleft.2).bind fun op? op?' hop => ?_
  cases hop with
  | @some op op' hop =>
    have := op.shorter
    refine (sameOutcome_chain r hop.2).bind fun right right' hright => ?_
    exact .ok ⟨by simp only [hleft.1, hop.1, hright.1], hright.2⟩
  | none =>
    refine (sameOutcome_front hleft.2).bind fun next next' hnext => ?_
    rw [hnext.isNegative]
    split
    · refine (sameOutcome_chain .sum hleft.2).bind fun right right' hright => ?_
      exact .ok ⟨by simp only [hleft.1, hright.1], hright.2⟩
    · exact .ok hleft
termination_by 16 * ts.length + depth r + 1
decreasing_by all_goals grind [depth, Rank.number]

theorem sameOutcome_operand (r : Rank) {ts us : List Token} (h : AllAkin ts us) :
    SameOutcome Parse.Akin (operand scope ending r ts) (operand scope ending r us) := by
  rw [operand.eq_def, operand.eq_def]
  cases r with
  | boolean => exact sameOutcome_chain .relational h
  | relational => exact sameOutcome_chain .sum h
  | sum => exact sameOutcome_chain .product h
  | product => exact sameOutcome_chain .power h
  | power => exact sameOutcome_atom h
termination_by 16 * ts.length + depth r
decreasing_by all_goals grind [depth, Rank.number]

theorem sameOutcome_atom {ts us : List Token} (h : AllAkin ts us) :
    SameOutcome Parse.Akin (atom scope ending ts) (atom scope ending us) := by
  cases h with
  | nil =>
    rw [atom]
    exact sameOutcome_literal .nil
  | @cons t u ts us h hs =>
    rw [atom, atom, h.isSymbol, h.isSymbol, h.isSymbol, h.isSymbol]
    split
    · refine (sameOutcome_atom hs).bind fun a a' ha => ?_
      exact .ok ⟨by rw [ha.1], ha.2⟩
    split
    · refine (sameOutcome_front hs).bind fun next next' hnext => ?_
      rw [hnext.isSymbol, hnext.isNumber]
      split
      · exact (sameOutcome_bracketed (AllAkin.tail hs)).bind fun a a' ha => .ok ha
      split
      · exact (sameOutcome_literal hs).bind fun x x' hx => .ok hx
      · exact .unexpected h _
    split
    · exact (sameOutcome_bracketed hs).bind fun a a' ha => .ok ha
    split
    · refine (sameOutcome_expression hs).bind fun a a' ha => ?_
      refine (sameOutcome_expect ha.2 _).bind fun bar bar' hbar => ?_
      exact .ok ⟨by rw [ha.1], hbar.2⟩
    rw [h.isIdentifier]
    split
    · next hname =>
      refine (sameOutcome_front hs).bind fun next next' hnext => ?_
      rw [hnext.isSymbol, h.contents_of_isIdentifier (h.isIdentifier.trans hname), h.position]
      split
      · cases scope.findFunction? u.contents with
        | none => exact .error (.refl _)
        | some f =>
          refine (sameOutcome_arguments false (AllAkin.tail hs)).bind fun args args' hargs => ?_
          refine (sameOutcome_expect hargs.2 _).bind fun close close' hclose => ?_
          exact .ok ⟨by rw [hargs.1], hclose.2⟩
      · cases scope.findVariable? u.contents with
        | none => exact .error (.refl _)
        | some v => exact .ok ⟨rfl, hs⟩
    · exact sameOutcome_literal (.cons h hs)
termination_by 16 * ts.length + 1
decreasing_by all_goals grind [depth, Rank.number]

theorem sameOutcome_bracketed {ts us : List Token} (h : AllAkin ts us) :
    SameOutcome Parse.Akin (bracketed scope ending ts) (bracketed scope ending us) := by
  rw [bracketed, bracketed]
  refine (sameOutcome_expression h).bind fun a a' ha => ?_
  refine (sameOutcome_expect ha.2 _).bind fun bracket bracket' hbracket => ?_
  exact .ok ⟨congrArg Expr.sealTop ha.1, hbracket.2⟩
termination_by 16 * ts.length + 15
decreasing_by all_goals grind [depth, Rank.number]

theorem sameOutcome_arguments (more : Bool) {ts us : List Token} (h : AllAkin ts us) :
    SameOutcome ArgumentsAkin (arguments scope ending more ts)
      (arguments scope ending more us) := by
  cases h with
  | nil =>
    rw [arguments]
    exact .map (.of_eq (R := Eq) (fun _ => rfl) ending) fun _ _ _ => ⟨rfl, .nil⟩
  | @cons t u ts us h hs =>
    rw [arguments, arguments, h.isSymbol]
    split
    · exact .ok ⟨rfl, .cons h hs⟩
    split
    · refine (sameOutcome_expect (.cons h hs) _).bind fun comma comma' hcomma => ?_
      have := comma.shorter
      refine (sameOutcome_expression hcomma.2).bind fun a a' ha => ?_
      have := a.shorter
      refine (sameOutcome_arguments true ha.2).bind fun args args' hargs => ?_
      exact .ok ⟨by rw [ha.1, hargs.1], hargs.2⟩
    · refine (sameOutcome_expression (.cons h hs)).bind fun a a' ha => ?_
      have := a.shorter
      refine (sameOutcome_arguments true ha.2).bind fun args args' hargs => ?_
      exact .ok ⟨by rw [ha.1, hargs.1], hargs.2⟩
termination_by 16 * ts.length + 15
decreasing_by all_goals grind [depth, Rank.number]

end

end Grammar

/-! ### Trees of texts -/

/-- Two lists of tokens that differ at most in the contents of symbols, with the same after them. -/
structure Tokens.Akin (ts us : Tokens) : Prop where
  ahead : AllAkin ts.ahead us.ahead
  ending : ts.ending = us.ending

namespace Workspace

variable [Arithmetic α] [Numeral α] (w : Workspace α)

/-- Tokens that differ at most in the contents of symbols are read as the same tree. -/
theorem sameOutcome_parse {ts us : Tokens} (h : ts.Akin us) :
    SameOutcome (fun p q => p.1 = q.1 ∧ AllAkin p.2 q.2) (w.parse ts) (w.parse us) := by
  rw [parse, parse, h.ending]
  exact (Grammar.sameOutcome_expression h.ahead).map fun _ _ h => h

theorem sameOutcome_finish (ending : Except Error Position) {ts us : List Token}
    (h : AllAkin ts us) : SameOutcome Eq (finish ending ts) (finish ending us) := by
  cases h with
  | nil => exact .of_eq (fun _ => rfl) _
  | cons h _ => exact .unexpected h _

/-- Tokens that differ at most in the contents of symbols make the same simplified tree. -/
theorem sameRun_read {ts us : Tokens} (h : ts.Akin us) : SameRun Eq (w.read ts) (w.read us) := by
  refine (SameRun.ofExcept (w.sameOutcome_parse h)).bind fun p q hpq => ?_
  rcases p with ⟨e, rest⟩
  rcases q with ⟨_, rest'⟩
  obtain ⟨rfl, hrest⟩ : e = _ ∧ AllAkin rest rest' := hpq
  refine (SameRun.refl _).bind fun e e' he => ?_
  rw [h.ending]
  exact (SameRun.ofExcept (sameOutcome_finish _ hrest)).bind fun _ _ _ => ⟨.ok he, rfl⟩

end Workspace

end Reckon
