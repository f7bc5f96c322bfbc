import Reckon.Proofs.Accepting
import Reckon.Proofs.Walks

/-!
# Recursive descent

The grammar as a parser carries it out: it goes through the tokens, looks at the next one or two of
them and takes them one by one, and the ranks of operators, the atoms and the arguments of a call
are procedures that call one another. Nothing is said here about how far a procedure has got when it
calls the next, and a token that is taken at the end is not taken.

Every call of a procedure ends. It comes to what the rule of the grammar says, and if it succeeds,
it has taken at least one token, and none past the last.

## Main definitions

* `Descent.expression`, `Descent.chain`, `Descent.atom` — the procedures.

## Main statements

* `Descent.comesTo_expression` — each procedure ends, with what its rule reads.
-/

namespace Reckon

/-- What a parser knows besides the tokens: the names in scope, and what comes after the last
token. -/
structure Descent (α : Type) where
  scope : Scope α
  ending : Except Error Position

namespace Descent

open Walk

variable {α : Type}

/-! ### Single tokens -/

/-- A procedure that reads from tokens. -/
abbrev Rule (β : Type) := Walk Token β

section

variable (ending : Except Error Position)

/-- The token in front. -/
def current : Rule Token := peek (ending.map .ending) 0

/-- The token after the one in front. -/
def next : Rule Token := peek (ending.map .ending) 1

/-- Takes the token in front. -/
def take : Rule Token := consume (ending.map .ending)

/-- Takes the token in front, whichever it is. -/
def skip : Rule Unit := discard (take ending)

/-- Takes the symbol `s`. -/
def expect (s : String) : Rule Unit := do
  let t ← current ending
  if t.isSymbol s then
    skip ending
  else
    throw (.unexpectedToken t (.symbol s))

/-- Takes an operator of a rank, if there is one in front. -/
def operator? (r : Rank) : Rule (Option Operator) := do
  let t ← current ending
  if t.isAnySymbol then
    match r.operators.lookup t.trigger with
    | some op =>
      skip ending
      pure (some op)
    | none => pure none
  else
    pure none

/-- Skips a plus sign if what comes after it is as `p` asks. -/
def skipPlus (p : Token → Bool) : Rule Unit := do
  if (← current ending).isSymbol "+" then
    if p (← next ending) then
      skip ending

/-- A number and its quantifier. -/
def number [Numeral α] : Rule (Expr α) := do
  let t ← take ending
  if t.isNumber then
    match Decimal.read? t.contents.toList with
    | none => throw (.malformedNumber t.source t.position)
    | some d =>
      if (← current ending).isIdentifier then
        let suffix ← take ending
        match Quantifier.named? suffix.contents with
        | some q => pure (.constant (Numeral.scale q (Numeral.ofDecimal d)))
        | none => throw (.unexpectedToken suffix .quantifier)
      else
        pure (.constant (Numeral.ofDecimal d))
  else
    throw (.unexpectedToken t .expression)

/-- A number, with or without a plus sign before it. -/
def literal [Numeral α] : Rule (Expr α) := do
  skipPlus ending Token.isNumber
  number ending

variable {ending}

/-- What has been read, and what is left. -/
def view {β : Type} {ts : List Token} (p : Grammar.Parse β ts) : β × List Token := (p.value, p.rest)

/-- What has been read of some tokens has also been read of more tokens. -/
theorem comesTo_weaken {β : Type} {us ts ahead : List Token} {x : Rule β}
    {r : Except Error (Grammar.Parse β us)} (h : ComesTo x ahead (r.map view))
    (hts : ∀ p : Grammar.Parse β us, p.rest.length < ts.length) :
    ComesTo x ahead ((r >>= fun p => .ok (⟨p.value, p.rest, hts p⟩ : Grammar.Parse β ts)).map
      view) := by
  cases r <;> exact h

theorem comesTo_current (ts : List Token) :
    ComesTo (current ending) ts ((Grammar.front ending ts).map (·, ts)) := by
  have hitem : item (ending.map .ending) ts 0 = Grammar.front ending ts := by cases ts <;> rfl
  exact hitem ▸ comesTo_peek _ _ _

theorem comesTo_next (ts : List Token) :
    ComesTo (next ending) ts ((Grammar.front ending ts.tail).map (·, ts)) := by
  have hitem : item (ending.map .ending) ts 1 = Grammar.front ending ts.tail := by
    rcases ts with _ | ⟨t, _ | ⟨u, ts⟩⟩ <;> rfl
  exact hitem ▸ comesTo_peek _ _ _

theorem comesTo_take (t : Token) (ts : List Token) :
    ComesTo (take ending) (t :: ts) (.ok (t, ts)) := comesTo_consume_cons _ t ts

theorem comesTo_skip (t : Token) (ts : List Token) :
    ComesTo (skip ending) (t :: ts) (.ok ((), ts)) := .ok rfl (List.suffix_cons t ts)

theorem comesTo_expect (s : String) (ts : List Token) :
    ComesTo (expect ending s) ts ((Grammar.expect ending s ts).map view) := by
  cases ts with
  | nil =>
    cases ending with
    | error e => exact (comesTo_current []).bind_of_error
    | ok place => exact (comesTo_current []).bind_of_ok (comesTo_throw _ _)
  | cons t ts =>
    refine (comesTo_current (t :: ts)).bind_of_ok ?_
    rw [Grammar.expect]
    split
    · exact comesTo_skip t ts
    · exact comesTo_throw _ _

/-- An operator that may have been read, and what is left. -/
def viewOperator {ts : List Token} (op? : Option (Grammar.Parse Operator ts)) :
    Option Operator × List Token :=
  match op? with
  | some op => (some op.value, op.rest)
  | none => (none, ts)

theorem comesTo_operator? (r : Rank) (ts : List Token) :
    ComesTo (operator? ending r) ts ((Grammar.operator? ending r ts).map viewOperator) := by
  cases ts with
  | nil =>
    cases ending with
    | error e => exact (comesTo_current []).bind_of_error
    | ok place => exact (comesTo_current []).bind_of_ok (comesTo_pure _ _)
  | cons t ts =>
    refine (comesTo_current (t :: ts)).bind_of_ok ?_
    rw [Grammar.operator?]
    split
    · cases r.operators.lookup t.trigger with
      | none => exact comesTo_pure _ _
      | some op => exact (comesTo_skip t ts).bind_of_ok (comesTo_pure _ _)
    · exact comesTo_pure _ _

theorem exists_cons_of_front {s : String} {t : Token} {ts : List Token}
    (ht : Grammar.front ending ts = .ok t) (hs : t.isSymbol s) : ∃ us, ts = t :: us := by
  cases ts with
  | nil =>
    cases ending with
    | error e => cases ht
    | ok place =>
      obtain rfl := Except.ok.inj ht
      cases hs
  | cons u us => exact ⟨us, by rw [Except.ok.inj ht]⟩

/-- A symbol that has been looked at already need not be looked at again. -/
theorem comesTo_skip_symbol {s : String} {t : Token} {ts : List Token}
    (ht : Grammar.front ending ts = .ok t) (hs : t.isSymbol s) :
    ComesTo (skip ending) ts ((Grammar.expect ending s ts).map view) := by
  obtain ⟨us, rfl⟩ := exists_cons_of_front ht hs
  rw [Grammar.expect, if_pos hs]
  exact comesTo_skip t us

theorem comesTo_number [Numeral α] (ts : List Token) :
    ComesTo (number (α := α) ending) ts ((Grammar.literal ending ts).map view) := by
  cases ts with
  | nil =>
    cases ending with
    | error e => exact .error rfl (List.suffix_refl _)
    | ok place => exact .error rfl (List.suffix_refl _)
  | cons t ts =>
    refine (comesTo_take t ts).bind_of_ok ?_
    rw [Grammar.literal]
    split
    · cases Decimal.read? t.contents.toList with
      | none => exact comesTo_throw _ _
      | some d =>
        cases ts with
        | nil =>
          cases ending with
          | error e => exact (comesTo_current []).bind_of_error
          | ok place => exact (comesTo_current []).bind_of_ok (comesTo_pure _ _)
        | cons u ts =>
          refine (comesTo_current (u :: ts)).bind_of_ok ?_
          dsimp only
          split
          · refine (comesTo_take u ts).bind_of_ok ?_
            cases Quantifier.named? u.contents with
            | none => exact comesTo_throw _ _
            | some q => exact comesTo_pure _ _
          · exact comesTo_pure _ _
    · exact comesTo_throw _ _

theorem comesTo_expect_cons {s : String} {t : Token} (h : t.isSymbol s) (ts : List Token) :
    ComesTo (expect ending s) (t :: ts) (.ok ((), ts)) := by
  refine (comesTo_current (t :: ts)).bind_of_ok ?_
  rw [if_pos h]
  exact comesTo_skip t ts

theorem exists_front_of_operator? {r : Rank} {op? : Option (Grammar.Parse Operator ts)}
    (h : Grammar.operator? ending r ts = .ok op?) : ∃ t, Grammar.front ending ts = .ok t := by
  cases ts with
  | nil =>
    cases ending with
    | error e => cases h
    | ok place => exact ⟨_, rfl⟩
  | cons t ts => exact ⟨t, rfl⟩

theorem comesTo_skipPlus_nil (p : Token → Bool) (place : Position) :
    ComesTo (skipPlus (.ok place) p) [] (.ok ((), [])) :=
  (comesTo_current []).bind_of_ok (comesTo_pure _ _)

theorem comesTo_skipPlus_of_not (p : Token → Bool) {t : Token} (h : t.isSymbol "+" = false)
    (ts : List Token) : ComesTo (skipPlus ending p) (t :: ts) (.ok ((), t :: ts)) := by
  refine (comesTo_current (t :: ts)).bind_of_ok ?_
  rw [if_neg (by rw [h]; exact Bool.false_ne_true)]
  exact comesTo_pure _ _

theorem comesTo_skipPlus (p : Token → Bool) {t : Token} (h : t.isSymbol "+") (ts : List Token) :
    ComesTo (skipPlus ending p) (t :: ts)
      ((Grammar.front ending ts).map fun u => ((), if p u then ts else t :: ts)) := by
  refine (comesTo_current (t :: ts)).bind_of_ok ?_
  rw [if_pos h]
  have hnext : ComesTo (next ending) (t :: ts) ((Grammar.front ending ts).map (·, t :: ts)) :=
    comesTo_next (t :: ts)
  cases hfront : Grammar.front ending ts with
  | error e =>
    rw [hfront] at hnext
    exact hnext.bind_of_error
  | ok u =>
    rw [hfront] at hnext
    refine hnext.bind_of_ok ?_
    show ComesTo _ _ (.ok ((), if p u then ts else t :: ts))
    split
    · exact comesTo_skip t ts
    · exact comesTo_pure _ _

/-- An argument and those after it, behind the arguments that there were before. -/
theorem comesTo_oneMore {ts us ahead : List Token} {x : Rule (List (Expr α))} {a : Expr α}
    {args : List (Expr α)}
    {r : Except Error (List (Expr α) × { rest : List Token // rest.length ≤ us.length })}
    (h : ComesTo x ahead (r.map fun p => (args ++ [a] ++ p.1, p.2.1)))
    (hts : ∀ p : List (Expr α) × { rest : List Token // rest.length ≤ us.length },
      p.2.1.length ≤ ts.length) :
    ComesTo x ahead ((r >>= fun p => .ok (a :: p.1,
      (⟨p.2.1, hts p⟩ : { rest : List Token // rest.length ≤ ts.length }))).map fun p =>
        (args ++ p.1, p.2.1)) := by
  cases r with
  | error e => exact h
  | ok p =>
    have h : ComesTo x ahead (.ok (args ++ [a] ++ p.1, p.2.1)) := h
    rwa [List.append_assoc] at h

end

/-! ### Rules -/

section

variable [Arithmetic α] [Numeral α]

mutual

/-- A condition with its two branches, or an expression without one. -/
def expression (d : Descent α) : Rule (Expr α) := do
  let c ← d |>.chain .boolean
  if (← current d.ending).isSymbol "?" then
    skip d.ending
    let a ← d |>.expression
    expect d.ending ":"
    let b ← d |>.expression
    pure (.call conditional [c, a, b])
  else
    pure c
partial_fixpoint

/-- A chain of operators of a rank and their operands. -/
def chain (d : Descent α) (r : Rank) : Rule (Expr α) := do
  let left ← d |>.operand r
  match ← operator? d.ending r with
  | some op =>
    let right ← d |>.chain r
    pure (Grammar.combine r left op right)
  | none =>
    if r = .sum then
      if Grammar.isNegative (← current d.ending) then
        let right ← d |>.chain .sum
        pure (.graft left .add right)
      else
        pure left
    else
      pure left
partial_fixpoint

/-- An operand of operators of a rank: a chain of the next rank, or an atom. -/
def operand (d : Descent α) (r : Rank) : Rule (Expr α) :=
  match r with
  | .boolean => d |>.chain .relational
  | .relational => d |>.chain .sum
  | .sum => d |>.chain .product
  | .product => d |>.chain .power
  | .power => d |>.atom
partial_fixpoint

/-- An operand without operators outside of brackets. -/
def atom (d : Descent α) : Rule (Expr α) := do
  if (← current d.ending).isSymbol "-" then
    skip d.ending
    let a ← d |>.atom
    pure (.binary .subtract (.constant Arithmetic.zero) a true)
  else
    skipPlus d.ending fun t => t.isSymbol "("
    if (← current d.ending).isSymbol "(" then
      skip d.ending
      d |>.bracketed
    else if (← current d.ending).isSymbol "|" then
      skip d.ending
      let a ← d |>.expression
      expect d.ending "|"
      pure (.call absolute [a])
    else if (← current d.ending).isIdentifier then
      if (← next d.ending).isSymbol "(" then
        d |>.call
      else
        let t ← take d.ending
        match d.scope.findVariable? t.contents with
        | some v => pure (.variable v)
        | none => throw (.unknownVariable t.contents t.position)
    else
      literal d.ending
partial_fixpoint

/-- An expression and the closing bracket after it. An operator at the top is sealed. -/
def bracketed (d : Descent α) : Rule (Expr α) := do
  let a ← d |>.expression
  expect d.ending ")"
  pure a.sealTop
partial_fixpoint

/-- A call. Its function is looked up before the arguments are read. -/
def call (d : Descent α) : Rule (Expr α) := do
  let t ← take d.ending
  match d.scope.findFunction? t.contents with
  | none => throw (.unknownFunction t.contents t.position)
  | some f =>
    expect d.ending "("
    let args ← d |>.arguments []
    expect d.ending ")"
    pure (.call f args)
partial_fixpoint

/-- Arguments after those read so far, up to a closing bracket or the end. -/
def arguments (d : Descent α) (args : List (Expr α)) : Rule (List (Expr α)) := do
  let t ← current d.ending
  if t.isSymbol ")" || t.isEnd then
    pure args
  else
    if !args.isEmpty then
      expect d.ending ","
    let a ← d |>.expression
    d |>.arguments (args ++ [a])
partial_fixpoint

end

/-- No end mark stands among some tokens. -/
def Endless (ts : List Token) : Prop := ∀ t ∈ ts, t.isEnd = false

theorem Endless.of_suffix {ts us : List Token} (h : Endless ts) (hus : us <:+ ts) : Endless us :=
  fun t ht => h t (hus.subset ht)

variable {d : Descent α}

-- The recursion is that of the grammar: each rule is followed by the procedure of the same name.
mutual

theorem comesTo_expression (ts : List Token) (hts : Endless ts) :
    ComesTo (d.expression) ts ((Grammar.expression d.scope d.ending ts).map view) := by
  rw [expression, Grammar.expression]
  refine (comesTo_chain .boolean ts hts).bind fun c _ hc => ?_
  have := c.shorter
  refine (comesTo_current c.rest).bind fun t ht _ => ?_
  dsimp only
  split
  · next hmark =>
    refine (comesTo_skip_symbol ht hmark).bind fun mark _ hmark => ?_
    have := mark.shorter
    have hts := (hts.of_suffix hc).of_suffix hmark
    refine (comesTo_expression mark.rest hts).bind fun a _ ha => ?_
    have := a.shorter
    refine (comesTo_expect ":" a.rest).bind fun colon _ hcolon => ?_
    have := colon.shorter
    have hts := (hts.of_suffix ha).of_suffix hcolon
    exact (comesTo_expression colon.rest hts).bind fun b _ _ => comesTo_pure _ _
  · exact comesTo_pure _ _
termination_by 16 * ts.length + 14
decreasing_by all_goals grind [Grammar.depth, Rank.number]

theorem comesTo_chain (r : Rank) (ts : List Token) (hts : Endless ts) :
    ComesTo (d.chain r) ts ((Grammar.chain d.scope d.ending r ts).map view) := by
  rw [chain, Grammar.chain]
  refine (comesTo_operand r ts hts).bind fun left _ hleft => ?_
  have := left.shorter
  have hts := hts.of_suffix hleft
  refine (comesTo_operator? r left.rest).bind fun op? hop? hrest => ?_
  cases op? with
  | some op =>
    have := op.shorter
    exact (comesTo_chain r op.rest (hts.of_suffix hrest)).bind fun right _ _ => comesTo_pure _ _
  | none =>
    dsimp only
    by_cases hr : r = .sum
    · subst hr
      refine (comesTo_current left.rest).bind fun t _ _ => ?_
      simp only [decide_true, Bool.true_and]
      split
      · exact (comesTo_chain .sum left.rest hts).bind fun right _ _ => comesTo_pure _ _
      · exact comesTo_pure _ _
    · -- The token in front has been looked at, so that there is one or the end.
      obtain ⟨t, ht⟩ := exists_front_of_operator? hop?
      rw [if_neg hr, ht]
      show ComesTo _ _
        (Except.map view (if decide (r = .sum) && Grammar.isNegative t then _ else _))
      simp only [hr, decide_false, Bool.false_and, Bool.false_eq_true, if_false]
      exact comesTo_pure _ _
termination_by 16 * ts.length + Grammar.depth r + 1
decreasing_by all_goals grind [Grammar.depth, Rank.number]

theorem comesTo_operand (r : Rank) (ts : List Token) (hts : Endless ts) :
    ComesTo (d.operand r) ts ((Grammar.operand d.scope d.ending r ts).map view) := by
  rw [operand.eq_def, Grammar.operand.eq_def]
  cases r with
  | boolean => exact comesTo_chain .relational ts hts
  | relational => exact comesTo_chain .sum ts hts
  | sum => exact comesTo_chain .product ts hts
  | product => exact comesTo_chain .power ts hts
  | power => exact comesTo_atom ts hts
termination_by 16 * ts.length + Grammar.depth r
decreasing_by all_goals grind [Grammar.depth, Rank.number]

theorem comesTo_atom (ts : List Token) (hts : Endless ts) :
    ComesTo (d.atom) ts ((Grammar.atom d.scope d.ending ts).map view) := by
  cases ts with
  | nil =>
    rw [atom, Grammar.atom]
    generalize d.ending = ending
    cases ending with
    | error e => exact (comesTo_current []).bind_of_error
    | ok place =>
      refine (comesTo_current []).bind_of_ok ?_
      refine (comesTo_skipPlus_nil _ place).bind_of_ok ?_
      refine (comesTo_current []).bind_of_ok ?_
      refine (comesTo_current []).bind_of_ok ?_
      refine (comesTo_current []).bind_of_ok ?_
      exact (comesTo_skipPlus_nil _ place).bind_of_ok (comesTo_number [])
  | cons t ts =>
    have hrest := hts.of_suffix (List.suffix_cons t ts)
    rw [atom, Grammar.atom]
    refine (comesTo_current (t :: ts)).bind_of_ok ?_
    split
    · refine (comesTo_skip t ts).bind_of_ok ?_
      exact (comesTo_atom ts hrest).bind fun a _ _ => comesTo_pure _ _
    split
    · next hplus =>
      refine (comesTo_skipPlus _ hplus ts).bind fun u hu _ => ?_
      dsimp only
      split
      · next hopen =>
        obtain ⟨us, rfl⟩ := exists_cons_of_front hu hopen
        refine (comesTo_current (u :: us)).bind_of_ok ?_
        rw [if_pos hopen]
        refine (comesTo_skip u us).bind_of_ok ?_
        have hus := hrest.of_suffix (List.suffix_cons u us)
        exact comesTo_weaken (comesTo_bracketed us hus) _
      · -- A plus sign is none of the other symbols, so that it can only stand before a number.
        have hopen : t.isSymbol "(" = false := Token.isSymbol_eq_false hplus (by decide)
        have hbar : t.isSymbol "|" = false := Token.isSymbol_eq_false hplus (by decide)
        refine (comesTo_current (t :: ts)).bind_of_ok ?_
        rw [if_neg (by simp [hopen])]
        refine (comesTo_current (t :: ts)).bind_of_ok ?_
        rw [if_neg (by simp [hbar])]
        refine (comesTo_current (t :: ts)).bind_of_ok ?_
        rw [if_neg (by simp [Token.isIdentifier_of_isSymbol hplus])]
        have hskip : ComesTo (skipPlus d.ending Token.isNumber) (t :: ts)
            ((Grammar.front d.ending ts).map fun u => ((), if u.isNumber then ts else t :: ts)) :=
          comesTo_skipPlus Token.isNumber hplus ts
        rw [hu] at hskip
        refine hskip.bind_of_ok ?_
        split
        · exact comesTo_weaken (comesTo_number ts) _
        · have hliteral : ComesTo (number d.ending) (t :: ts)
              ((Grammar.literal (α := α) d.ending (t :: ts)).map view) := comesTo_number (t :: ts)
          rwa [Grammar.literal, if_neg (by simp [Token.isNumber_of_isSymbol hplus])] at hliteral
    · next hplus =>
      refine (comesTo_skipPlus_of_not _ (by simpa using hplus) ts).bind_of_ok ?_
      refine (comesTo_current (t :: ts)).bind_of_ok ?_
      split
      · refine (comesTo_skip t ts).bind_of_ok ?_
        exact comesTo_weaken (comesTo_bracketed ts hrest) _
      refine (comesTo_current (t :: ts)).bind_of_ok ?_
      split
      · refine (comesTo_skip t ts).bind_of_ok ?_
        refine (comesTo_expression ts hrest).bind fun a _ _ => ?_
        exact (comesTo_expect "|" a.rest).bind fun bar _ _ => comesTo_pure _ _
      refine (comesTo_current (t :: ts)).bind_of_ok ?_
      split
      · refine (comesTo_next (t :: ts)).bind fun u hu _ => ?_
        dsimp only
        split
        · next hopen =>
          obtain ⟨us, rfl⟩ := exists_cons_of_front hu hopen
          rw [call]
          refine (comesTo_take t (u :: us)).bind_of_ok ?_
          cases d.scope.findFunction? t.contents with
          | none => exact comesTo_throw _ _
          | some f =>
            refine (comesTo_expect_cons hopen us).bind_of_ok ?_
            have hus := hrest.of_suffix (List.suffix_cons u us)
            refine (comesTo_arguments [] us hus).bind fun args _ _ => ?_
            exact (comesTo_expect ")" args.2.1).bind fun close _ _ => comesTo_pure _ _
        · refine (comesTo_take t ts).bind_of_ok ?_
          cases d.scope.findVariable? t.contents with
          | none => exact comesTo_throw _ _
          | some v => exact comesTo_pure _ _
      · refine (comesTo_skipPlus_of_not _ (by simpa using hplus) ts).bind_of_ok ?_
        exact comesTo_number _
termination_by 16 * ts.length + 1
decreasing_by all_goals grind [Grammar.depth, Rank.number]

theorem comesTo_bracketed (ts : List Token) (hts : Endless ts) :
    ComesTo (d.bracketed) ts ((Grammar.bracketed d.scope d.ending ts).map view) := by
  rw [bracketed, Grammar.bracketed]
  refine (comesTo_expression ts hts).bind fun a _ _ => ?_
  exact (comesTo_expect ")" a.rest).bind fun close _ _ => comesTo_pure _ _
termination_by 16 * ts.length + 15
decreasing_by all_goals grind [Grammar.depth, Rank.number]

/-- The arguments are those that there were before and those that are read. -/
theorem comesTo_arguments (args : List (Expr α)) (ts : List Token) (hts : Endless ts) :
    ComesTo (d.arguments args) ts
      ((Grammar.arguments d.scope d.ending (!args.isEmpty) ts).map fun p =>
        (args ++ p.1, p.2.1)) := by
  rw [arguments]
  cases ts with
  | nil =>
    rw [Grammar.arguments]
    generalize d.ending = ending
    cases ending with
    | error e => exact (comesTo_current []).bind_of_error
    | ok place =>
      refine (comesTo_current []).bind_of_ok ?_
      show ComesTo _ _ (.ok (args ++ [], []))
      rw [List.append_nil]
      exact comesTo_pure args []
  | cons t ts =>
    rw [Grammar.arguments]
    refine (comesTo_current (t :: ts)).bind_of_ok ?_
    simp only [hts t List.mem_cons_self, Bool.or_false]
    split
    · show ComesTo _ _ (.ok (args ++ [], t :: ts))
      rw [List.append_nil]
      exact comesTo_pure args (t :: ts)
    have hlater (a : Expr α) (us : List Token) (hus : Endless us)
        (hshorter : us.length < (t :: ts).length) :
        ComesTo (d.arguments (args ++ [a])) us
          ((Grammar.arguments d.scope d.ending true us).map fun p =>
            (args ++ [a] ++ p.1, p.2.1)) := by
      have h := comesTo_arguments (args ++ [a]) us hus
      rwa [List.isEmpty_eq_false_iff.2 (by simp), Bool.not_false] at h
    cases (!args.isEmpty) with
    | true =>
      simp only [if_true]
      refine (comesTo_expect "," (t :: ts)).bind fun comma _ hcomma => ?_
      have := comma.shorter
      have hts := hts.of_suffix hcomma
      refine (comesTo_expression comma.rest hts).bind fun a _ ha => ?_
      have := a.shorter
      exact comesTo_oneMore (hlater a.value a.rest (hts.of_suffix ha) (by omega)) _
    | false =>
      simp only [Bool.false_eq_true, if_false]
      refine (comesTo_expression (t :: ts) hts).bind fun a _ ha => ?_
      exact comesTo_oneMore (hlater a.value a.rest (hts.of_suffix ha) a.shorter) _
termination_by 16 * ts.length + 15
decreasing_by all_goals grind [Grammar.depth, Rank.number]

end

end

end Descent

end Reckon
