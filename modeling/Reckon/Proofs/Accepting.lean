import Reckon.Proofs.Parsing

/-!
# What the grammar accepts

Whatever can be read off the front of tokens is parsed, provided that the token after it does not
carry it on. The rules of the conventional reading do not look at that token, the grammar does: a
number takes a name after it for its quantifier, a name before a bracket is a function, and a chain
goes on for as long as there are operators.

## Main definitions

* `Token.Continues` — a token carries on a chain of operators.
* `Phrase.Stops` — the token after a phrase does not carry it on.

## Main statements

* `parsed_of_reads` — what can be read, and stops, is parsed.
* `takes_expression_iff` — for all the tokens of a formula, to be parsed and to be read are
  the same.
-/

namespace Reckon

/-! ### Tokens told apart -/

namespace Token

variable {t : Token} {s : String}

theorem isSymbol_iff : t.isSymbol s ↔ t.kind = .symbol ∧ t.trigger = s := by
  simp [isSymbol, matchesTrigger]

theorem isSymbol_eq_false (h : t.isSymbol s) {s' : String} (hs : s ≠ s') :
    t.isSymbol s' = false := by
  rw [isSymbol_iff] at h
  simp [isSymbol, matchesTrigger, h.2, hs]

theorem isIdentifier_of_isSymbol (h : t.isSymbol s) : t.isIdentifier = false := by
  simp [isIdentifier, (isSymbol_iff.1 h).1]

theorem isNumber_of_isSymbol (h : t.isSymbol s) : t.isNumber = false := by
  simp [isNumber, (isSymbol_iff.1 h).1]

theorem isSymbol_of_isNumber (h : t.isNumber) (s : String) : t.isSymbol s = false := by
  cases hs : t.isSymbol s with
  | false => rfl
  | true => simp [isNumber_of_isSymbol hs] at h

theorem isSymbol_of_isIdentifier (h : t.isIdentifier) (s : String) : t.isSymbol s = false := by
  cases hs : t.isSymbol s with
  | false => rfl
  | true => simp [isIdentifier_of_isSymbol hs] at h

theorem isIdentifier_of_isNumber (h : t.isNumber) : t.isIdentifier = false := by
  cases hk : t.kind <;> simp [isNumber, isIdentifier, hk] at h ⊢

theorem isAnySymbol_of_isNumber (h : t.isNumber) : t.isAnySymbol = false := by
  cases hk : t.kind <;> simp [isNumber, isAnySymbol, hk] at h ⊢

theorem isNumber_of_isNegative (h : Grammar.isNegative t) : t.isNumber := by
  simp only [Grammar.isNegative, Bool.and_eq_true] at h
  exact h.1

/-- A token carries on a chain of operators of rank `r`. -/
def Continues (r : Rank) (t : Token) : Prop :=
  (t.isAnySymbol ∧ (r.operators.lookup t.trigger).isSome) ∨ (r = .sum ∧ Grammar.isNegative t)

instance (r : Rank) (t : Token) : Decidable (t.Continues r) := inferInstanceAs (Decidable (_ ∨ _))

/-- A token is neither a quantifier nor the bracket of a call. -/
def EndsAtom (t : Token) : Prop := t.isIdentifier = false ∧ t.isSymbol "(" = false

end Token

/-- The spellings of an operator are found under no rank but its own. -/
theorem Rank.eq_of_lookup {r r' : Rank} {s : String} {op : Operator}
    (h : r.operators.lookup s = some op) (h' : (r'.operators.lookup s).isSome) : r' = r := by
  obtain ⟨before, after, he, -⟩ := List.lookup_eq_some_iff.1 h
  have hs : s ∈ r.operators.map Prod.fst := by simp [he]
  have hall : ∀ s ∈ r.operators.map Prod.fst, (r'.operators.lookup s).isSome → r' = r := by
    cases r <;> cases r' <;> decide
  exact hall s hs h'

/-- The symbols that end an operand without being operators. -/
def closers : List String := [")", ":", "|", ",", "?"]

namespace Token

variable {t : Token} {s : String} {r r' : Rank} {op : Operator}

theorem not_continues_of_closer (h : t.isSymbol s) (hs : s ∈ closers) (r : Rank) :
    ¬ t.Continues r := by
  rintro (⟨-, hl⟩ | ⟨-, hn⟩)
  · have hall : ∀ s ∈ closers, r.operators.lookup s = none := by
      cases r <;> decide
    simp [(isSymbol_iff.1 h).2, hall s hs] at hl
  · simp [isSymbol_of_isNumber (isNumber_of_isNegative hn)] at h

theorem endsAtom_of_closer (h : t.isSymbol s) (hs : s ∈ closers) : t.EndsAtom :=
  ⟨isIdentifier_of_isSymbol h, isSymbol_eq_false h fun he => by subst he; revert hs; decide⟩

theorem eq_of_continues (ht : t.isAnySymbol) (hop : r.operators.lookup t.trigger = some op)
    (h : t.Continues r') : r' = r := by
  obtain ⟨-, hl⟩ | ⟨-, hn⟩ := h
  · exact Rank.eq_of_lookup hop hl
  · simp [isAnySymbol_of_isNumber (isNumber_of_isNegative hn)] at ht

theorem endsAtom_of_operator (ht : t.isAnySymbol) (hop : r.operators.lookup t.trigger = some op) :
    t.EndsAtom := by
  simp only [isAnySymbol, beq_iff_eq] at ht
  refine ⟨by simp [isIdentifier, ht], ?_⟩
  cases hs : t.isSymbol "(" with
  | false => rfl
  | true =>
    have hnone : r.operators.lookup "(" = none := by cases r <;> decide
    simp [(isSymbol_iff.1 hs).2, hnone] at hop

theorem eq_sum_of_continues (ht : Grammar.isNegative t) (h : t.Continues r) : r = .sum := by
  obtain ⟨hs, -⟩ | ⟨hr, -⟩ := h
  · simp [isAnySymbol_of_isNumber (isNumber_of_isNegative ht)] at hs
  · exact hr

theorem endsAtom_of_isNegative (ht : Grammar.isNegative t) : t.EndsAtom :=
  have hn := isNumber_of_isNegative ht
  ⟨isIdentifier_of_isNumber hn, isSymbol_of_isNumber hn "("⟩

end Token

/-- The token after a phrase does not carry the phrase on. -/
def Phrase.Stops {α : Type} : Phrase α → List Token → Prop
  | expression _, rest =>
    ∀ t ∈ rest.head?, t.EndsAtom ∧ (∀ r, ¬ t.Continues r) ∧ t.isSymbol "?" = false
  | chain r _ _, rest =>
    ∀ t ∈ rest.head?, t.EndsAtom ∧ ∀ r', r.number ≤ r'.number → ¬ t.Continues r'
  | operand r _, rest =>
    ∀ t ∈ rest.head?, t.EndsAtom ∧ ∀ r', r.number < r'.number → ¬ t.Continues r'
  | atom _, rest => ∀ t ∈ rest.head?, t.EndsAtom
  | arguments _, rest => ∃ t us, rest = t :: us ∧ t.isSymbol ")"
  | moreArguments _, rest => ∃ t us, rest = t :: us ∧ t.isSymbol ")"

namespace Grammar

variable {α : Type} [Arithmetic α] [Numeral α] {scope : Scope α} {place : Position}
variable {e left right : Expr α} {ts us rest : List Token} {t : Token}

/-! ### Putting a parse together -/

theorem operator?_eq_none {r : Rank} (h : ∀ t ∈ ts.head?, ¬ t.Continues r) :
    operator? (.ok place) r ts = .ok none := by
  cases ts with
  | nil => rfl
  | cons t ts =>
    have ht : ¬ t.Continues r := h t rfl
    by_cases hs : t.isAnySymbol
    · have hl : r.operators.lookup t.trigger = none := by
        by_contra hl
        exact ht (.inl ⟨hs, Option.isSome_iff_ne_none.2 hl⟩)
      simp [operator?, hs, hl]
    · simp [operator?, hs]

theorem operator?_eq_none_of_number {r : Rank} (hts : ts = t :: us) (ht : t.isNumber) :
    operator? (.ok place) r ts = .ok none := by
  subst hts
  simp [operator?, Token.isAnySymbol_of_isNumber ht]

theorem exists_expect {s : String} (place : Position) (hts : ts = t :: us) (ht : t.isSymbol s) :
    ∃ p, expect (.ok place) s ts = .ok p ∧ p.rest = us := by
  subst hts
  exact ⟨⟨(), us, by simp⟩, by simp [expect, ht], rfl⟩

/-- At the end of the tokens there is a token that is no symbol and no number. -/
theorem exists_front (place : Position) (us : List Token) :
    ∃ next, front (.ok place) us = .ok next ∧ (next ∈ us.head? ∨ next = .ending place) := by
  cases us with
  | nil => exact ⟨_, rfl, .inr rfl⟩
  | cons t us => exact ⟨t, rfl, .inl rfl⟩

theorem takes_chain_single {r : Rank} (h : Takes (operand scope (.ok place) r ts) e us)
    (hs : ∀ t ∈ us.head?, ¬ t.Continues r) : Takes (chain scope (.ok place) r ts) e us := by
  obtain ⟨p, hp, rfl, rfl⟩ := h
  obtain ⟨next, hnext, hn⟩ := exists_front place p.rest
  have hneg : (decide (r = .sum) && isNegative next) = false := by
    obtain hn | rfl := hn
    · by_contra hc
      exact hs next hn (.inr (by simpa using hc))
    · simp [isNegative, Token.ending, Token.empty, Token.isNumber]
  rw [chain]
  refine takes_bind.2 ⟨p, hp, takes_bind.2 ⟨none, operator?_eq_none hs, ?_⟩⟩
  refine takes_bind.2 ⟨next, hnext, ?_⟩
  simp [hneg]

theorem takes_chain_more {r : Rank} {op : Operator}
    (h : Takes (operand scope (.ok place) r ts) left (t :: us)) (ht : t.isAnySymbol)
    (hop : r.operators.lookup t.trigger = some op)
    (hr : Takes (chain scope (.ok place) r us) right rest) :
    Takes (chain scope (.ok place) r ts) (combine r left op right) rest := by
  obtain ⟨p, hp, rfl, hus⟩ := h
  obtain ⟨q, hq, rfl, rfl⟩ := hr
  rw [chain]
  refine takes_bind.2 ⟨p, hp, ?_⟩
  have hop' : operator? (.ok place) r p.rest = .ok (some ⟨op, us, by simp [hus]⟩) :=
    operator?_eq_some.2 ⟨t, hus, ht, hop⟩
  exact takes_bind.2 ⟨_, hop', takes_bind.2 ⟨q, hq, takes_ok.2 ⟨rfl, rfl⟩⟩⟩

theorem takes_chain_glued (h : Takes (operand scope (.ok place) .sum ts) left (t :: us))
    (ht : isNegative t) (hr : Takes (chain scope (.ok place) .sum (t :: us)) right rest) :
    Takes (chain scope (.ok place) .sum ts) (combine .sum left .add right) rest := by
  obtain ⟨p, hp, rfl, hus⟩ := h
  rw [← hus] at hr
  obtain ⟨q, hq, rfl, rfl⟩ := hr
  have hnone : operator? (.ok place) .sum p.rest = .ok none :=
    operator?_eq_none_of_number hus (Token.isNumber_of_isNegative ht)
  have hfront : front (.ok place) p.rest = .ok t := by rw [hus]; rfl
  rw [chain]
  refine takes_bind.2 ⟨p, hp, takes_bind.2 ⟨none, hnone, takes_bind.2 ⟨t, hfront, ?_⟩⟩⟩
  simp only [ht, decide_true, Bool.and_self, if_true]
  exact takes_bind.2 ⟨q, hq, takes_ok.2 ⟨rfl, rfl⟩⟩

theorem takes_operand {r r' : Rank} (hr : r.tighter? = some r')
    (h : Takes (chain scope (.ok place) r' ts) e rest) :
    Takes (operand scope (.ok place) r ts) e rest := by
  unfold operand
  cases r <;> simp only [Rank.tighter?, Option.some.injEq, reduceCtorEq] at hr <;> subst hr <;>
    exact h

theorem takes_operand_power (h : Takes (atom scope (.ok place) ts) e rest) :
    Takes (operand scope (.ok place) .power ts) e rest := by
  unfold operand
  exact h

theorem takes_expression_unconditional (h : Takes (chain scope (.ok place) .boolean ts) e us)
    (hs : ∀ t ∈ us.head?, t.isSymbol "?" = false) :
    Takes (expression scope (.ok place) ts) e us := by
  obtain ⟨p, hp, rfl, rfl⟩ := h
  obtain ⟨next, hnext, hn⟩ := exists_front place p.rest
  have hq : next.isSymbol "?" = false := by
    obtain hn | rfl := hn
    · exact hs next hn
    · rfl
  rw [expression]
  refine takes_bind.2 ⟨p, hp, takes_bind.2 ⟨next, hnext, ?_⟩⟩
  simp [hq]

theorem takes_expression_conditional {c a b : Expr α} {q colon : Token} {vs : List Token}
    (h : Takes (chain scope (.ok place) .boolean ts) c (q :: us)) (hq : q.isSymbol "?")
    (ha : Takes (expression scope (.ok place) us) a (colon :: vs)) (hc : colon.isSymbol ":")
    (hb : Takes (expression scope (.ok place) vs) b rest) :
    Takes (expression scope (.ok place) ts) (.call conditional [c, a, b]) rest := by
  obtain ⟨p, hp, rfl, hpr⟩ := h
  obtain ⟨mark, hmark, rfl⟩ := exists_expect place hpr hq
  obtain ⟨a, ha, rfl, har⟩ := ha
  obtain ⟨close, hclose, rfl⟩ := exists_expect place har hc
  obtain ⟨b, hb, rfl, rfl⟩ := hb
  have hfront : front (.ok place) p.rest = .ok q := by rw [hpr]; rfl
  rw [expression]
  refine takes_bind.2 ⟨p, hp, takes_bind.2 ⟨q, hfront, ?_⟩⟩
  simp only [hq, if_true]
  exact takes_bind.2 ⟨mark, hmark, takes_bind.2 ⟨a, ha, takes_bind.2 ⟨close, hclose,
    takes_bind.2 ⟨b, hb, takes_ok.2 ⟨rfl, rfl⟩⟩⟩⟩⟩

theorem takes_bracketed {u : Token} (h : Takes (expression scope (.ok place) ts) e (u :: rest))
    (hu : u.isSymbol ")") : Takes (bracketed scope (.ok place) ts) e.sealTop rest := by
  obtain ⟨p, hp, rfl, hpr⟩ := h
  obtain ⟨close, hclose, rfl⟩ := exists_expect place hpr hu
  rw [bracketed]
  exact takes_bind.2 ⟨p, hp, takes_bind.2 ⟨close, hclose, takes_ok.2 ⟨rfl, rfl⟩⟩⟩

/-! ### Atoms -/

omit [Arithmetic α] in
theorem takes_literal_number {d : Decimal} (ht : t.isNumber)
    (hd : Decimal.read? t.contents.toList = some d) (hs : ∀ u ∈ us.head?, u.EndsAtom) :
    Takes (literal (α := α) (.ok place) (t :: us)) (.constant (Numeral.ofDecimal d)) us := by
  cases us with
  | nil => simp [literal, ht, hd, Except.map]
  | cons u us => simp [literal, ht, hd, (hs u rfl).1]

omit [Arithmetic α] in
theorem takes_literal_scaled {d : Decimal} {k : Quantifier} {q : Token} (ht : t.isNumber)
    (hd : Decimal.read? t.contents.toList = some d) (hq : q.isIdentifier)
    (hk : Quantifier.named? q.contents = some k) :
    Takes (literal (α := α) (.ok place) (t :: q :: us))
      (.constant (Numeral.scale k (Numeral.ofDecimal d))) us := by
  simp [literal, ht, hd, hq, hk]

theorem takes_atom_number (ht : t.isNumber)
    (h : Takes (literal (.ok place) (t :: us)) e rest) :
    Takes (atom scope (.ok place) (t :: us)) e rest := by
  have hsym := Token.isSymbol_of_isNumber ht
  rw [atom]
  simpa [hsym, Token.isIdentifier_of_isNumber ht] using h

theorem takes_atom_brackets (ht : t.isSymbol "(")
    (h : Takes (bracketed scope (.ok place) ts) e rest) :
    Takes (atom scope (.ok place) (t :: ts)) e rest := by
  have hm : t.isSymbol "-" = false := Token.isSymbol_eq_false ht (by decide)
  have hp : t.isSymbol "+" = false := Token.isSymbol_eq_false ht (by decide)
  obtain ⟨p, hp', rfl, rfl⟩ := h
  rw [atom]
  simp only [hm, hp, ht, Bool.false_eq_true, if_false, if_true]
  exact takes_bind.2 ⟨p, hp', takes_ok.2 ⟨rfl, rfl⟩⟩

theorem takes_atom_negation (ht : t.isSymbol "-") (h : Takes (atom scope (.ok place) ts) e rest) :
    Takes (atom scope (.ok place) (t :: ts))
      (.binary .subtract (.constant Arithmetic.zero) e true) rest := by
  obtain ⟨p, hp, rfl, rfl⟩ := h
  rw [atom]
  simp only [ht, if_true]
  exact takes_bind.2 ⟨p, hp, takes_ok.2 ⟨rfl, rfl⟩⟩

theorem takes_atom_plus {p : Token} (hp : p.isSymbol "+") (ht : t.isSymbol "(" ∨ t.isNumber)
    (h : Takes (atom scope (.ok place) (t :: ts)) e rest) :
    Takes (atom scope (.ok place) (p :: t :: ts)) e rest := by
  have hm : p.isSymbol "-" = false := Token.isSymbol_eq_false hp (by decide)
  rw [atom]
  simp only [hm, hp, Bool.false_eq_true, if_false, if_true]
  refine takes_bind.2 ⟨t, rfl, ?_⟩
  rw [atom] at h
  cases hb : t.isSymbol "(" with
  | true =>
    have hm : t.isSymbol "-" = false := Token.isSymbol_eq_false hb (by decide)
    have hp : t.isSymbol "+" = false := Token.isSymbol_eq_false hb (by decide)
    simp only [hm, hp, hb, Bool.false_eq_true, if_false, if_true] at h ⊢
    obtain ⟨a, ha, h⟩ := takes_bind.1 h
    obtain ⟨rfl, rfl⟩ := takes_ok.1 h
    exact takes_bind.2 ⟨a, ha, takes_ok.2 ⟨rfl, rfl⟩⟩
  | false =>
    have hn : t.isNumber := ht.resolve_left (by simp [hb])
    have hsym := Token.isSymbol_of_isNumber hn
    simp only [hsym, hn, Token.isIdentifier_of_isNumber hn, Bool.false_eq_true, if_false,
      if_true] at h ⊢
    obtain ⟨x, hx, rfl, rfl⟩ := h
    exact takes_bind.2 ⟨x, hx, takes_ok.2 ⟨rfl, rfl⟩⟩

theorem takes_atom_bars {u : Token} (ht : t.isSymbol "|")
    (h : Takes (expression scope (.ok place) ts) e (u :: rest)) (hu : u.isSymbol "|") :
    Takes (atom scope (.ok place) (t :: ts)) (.call absolute [e]) rest := by
  have hm : t.isSymbol "-" = false := Token.isSymbol_eq_false ht (by decide)
  have hp : t.isSymbol "+" = false := Token.isSymbol_eq_false ht (by decide)
  have hb : t.isSymbol "(" = false := Token.isSymbol_eq_false ht (by decide)
  obtain ⟨p, hp', rfl, hpr⟩ := h
  obtain ⟨bar, hbar, rfl⟩ := exists_expect place hpr hu
  rw [atom]
  simp only [hm, hp, hb, ht, Bool.false_eq_true, if_false, if_true]
  exact takes_bind.2 ⟨p, hp', takes_bind.2 ⟨bar, hbar, takes_ok.2 ⟨rfl, rfl⟩⟩⟩

/-- A list of arguments is parsed up to some tokens. -/
def TakesArguments (scope : Scope α) (place : Position) (more : Bool) (es : List (Expr α))
    (ts rest : List Token) : Prop :=
  ∃ close, arguments scope (.ok place) more ts = .ok (es, close) ∧ close.1 = rest

theorem takes_atom_call {f : Function α} {es : List (Expr α)} {u v : Token} (ht : t.isIdentifier)
    (hu : u.isSymbol "(") (hf : scope.findFunction? t.contents = some f)
    (h : TakesArguments scope place false es ts (v :: rest)) (hv : v.isSymbol ")") :
    Takes (atom scope (.ok place) (t :: u :: ts)) (.call f es) rest := by
  have hsym := Token.isSymbol_of_isIdentifier ht
  obtain ⟨close, hclose, hcr⟩ := h
  obtain ⟨bracket, hbracket, rfl⟩ := exists_expect place hcr hv
  rw [atom]
  simp only [hsym, ht, Bool.false_eq_true, if_false, if_true]
  refine takes_bind.2 ⟨u, rfl, ?_⟩
  simp only [hu, if_true, hf]
  exact takes_bind.2 ⟨(es, close), hclose, takes_bind.2 ⟨bracket, hbracket, takes_ok.2 ⟨rfl, rfl⟩⟩⟩

theorem takes_atom_named {v : Variable} (ht : t.isIdentifier)
    (hv : scope.findVariable? t.contents = some v) (hs : ∀ u ∈ us.head?, u.EndsAtom) :
    Takes (atom scope (.ok place) (t :: us)) (.variable v) us := by
  have hsym := Token.isSymbol_of_isIdentifier ht
  obtain ⟨next, hnext, hn⟩ := exists_front place us
  have hb : next.isSymbol "(" = false := by
    obtain hn | rfl := hn
    · exact (hs next hn).2
    · rfl
  rw [atom]
  simp only [hsym, ht, Bool.false_eq_true, if_false, if_true]
  refine takes_bind.2 ⟨next, hnext, ?_⟩
  simp [hb, hv]

/-! ### Arguments -/

theorem takesArguments_nil {more : Bool} {v : Token} (hv : v.isSymbol ")") :
    TakesArguments scope place more [] (v :: rest) (v :: rest) := by
  refine ⟨⟨v :: rest, by simp⟩, ?_, rfl⟩
  rw [arguments]
  simp [hv]

theorem takesArguments_first {es : List (Expr α)} (ht : t.isSymbol ")" = false)
    (h : Takes (expression scope (.ok place) (t :: ts)) e us)
    (hs : TakesArguments scope place true es us rest) :
    TakesArguments scope place false (e :: es) (t :: ts) rest := by
  obtain ⟨p, hp, rfl, rfl⟩ := h
  obtain ⟨close, hclose, rfl⟩ := hs
  have hle := close.2
  have hlt := p.shorter
  refine ⟨⟨close.1, by omega⟩, ?_, rfl⟩
  rw [arguments]
  simp [ht, hp, hclose, bind, Except.bind]

theorem takesArguments_next {es : List (Expr α)} (ht : t.isSymbol ",")
    (h : Takes (expression scope (.ok place) ts) e us)
    (hs : TakesArguments scope place true es us rest) :
    TakesArguments scope place true (e :: es) (t :: ts) rest := by
  have hb : t.isSymbol ")" = false := Token.isSymbol_eq_false ht (by decide)
  obtain ⟨p, hp, rfl, rfl⟩ := h
  obtain ⟨close, hclose, rfl⟩ := hs
  have hle := close.2
  have hlt := p.shorter
  refine ⟨⟨close.1, by simp only [List.length_cons]; omega⟩, ?_, rfl⟩
  rw [arguments]
  simp [hb, ht, expect, hp, hclose, bind, Except.bind]

/-! ### What can be read is parsed -/

end Grammar

/-- A rule of the grammar parses a phrase. -/
def Phrase.Parsed {α : Type} [Arithmetic α] [Numeral α] (scope : Scope α) (place : Position)
    (ts rest : List Token) : Phrase α → Prop
  | expression e => Grammar.Takes (Grammar.expression scope (.ok place) ts) e rest
  | chain r first tail =>
    Grammar.Takes (Grammar.chain scope (.ok place) r ts) (r.nest first tail) rest
  | operand r e => Grammar.Takes (Grammar.operand scope (.ok place) r ts) e rest
  | atom e => Grammar.Takes (Grammar.atom scope (.ok place) ts) e rest
  | arguments es => Grammar.TakesArguments scope place false es ts rest
  | moreArguments es => Grammar.TakesArguments scope place true es ts rest

section Acceptance

variable {α : Type} [Arithmetic α] [Numeral α] {scope : Scope α} {place : Position}
variable {e : Expr α} {ph : Phrase α} {ts rest : List Token}

/-- Where a phrase begins, if it is not a list of arguments. -/
def Phrase.Begins (ts : List Token) : Phrase α → Prop
  | arguments _ => True
  | moreArguments _ => True
  | _ => ∃ t us, ts = t :: us ∧ t.isSymbol ")" = false

/-- No expression begins with a closing bracket. -/
theorem Reads.begins (h : Reads scope ph ts rest) : ph.Begins ts := by
  induction h with
  | unconditional _ ih => exact ih
  | conditional _ _ _ _ _ ih => exact ih
  | single _ ih => exact ih
  | more _ _ _ _ ih => exact ih
  | glued _ _ _ ih => exact ih
  | inner _ _ ih => exact ih
  | innermost _ ih => exact ih
  | negation ht => exact ⟨_, _, rfl, Token.isSymbol_eq_false ht (by decide)⟩
  | plus hp => exact ⟨_, _, rfl, Token.isSymbol_eq_false hp (by decide)⟩
  | brackets ht => exact ⟨_, _, rfl, Token.isSymbol_eq_false ht (by decide)⟩
  | bars ht => exact ⟨_, _, rfl, Token.isSymbol_eq_false ht (by decide)⟩
  | call ht => exact ⟨_, _, rfl, Token.isSymbol_of_isIdentifier ht _⟩
  | named ht => exact ⟨_, _, rfl, Token.isSymbol_of_isIdentifier ht _⟩
  | number ht => exact ⟨_, _, rfl, Token.isSymbol_of_isNumber ht _⟩
  | scaled ht => exact ⟨_, _, rfl, Token.isSymbol_of_isNumber ht _⟩
  | _ => trivial

omit [Arithmetic α] [Numeral α] in
/-- An expression does not go on after a closing bracket, a bar, a colon or a comma. -/
theorem Phrase.stops_of_closer {u : Token} {us : List Token} {s : String} (hu : u.isSymbol s)
    (hs : s ∈ closers) (hq : s ≠ "?") : (expression e).Stops (u :: us) := by
  rintro t ⟨⟩
  exact ⟨Token.endsAtom_of_closer hu hs, Token.not_continues_of_closer hu hs,
    Token.isSymbol_eq_false hu hq⟩

/-- Further arguments begin with a comma, and a closing bracket comes after the last. -/
theorem Reads.stops_of_moreArguments {es : List (Expr α)} {us : List Token}
    (h : Reads scope (.moreArguments es) us rest) (hs : (Phrase.moreArguments es).Stops rest) :
    (Phrase.expression e).Stops us := by
  cases h with
  | noMore =>
    obtain ⟨v, us, rfl, hv⟩ := hs
    exact Phrase.stops_of_closer hv (by decide) (by decide)
  | oneMore ht => exact Phrase.stops_of_closer ht (by decide) (by decide)

/-- Whatever can be read, and stops where it does, is parsed. -/
theorem parsed_of_reads (h : Reads scope ph ts rest) (hs : ph.Stops rest) :
    ph.Parsed scope place ts rest := by
  induction h with
  | unconditional _ ih =>
    refine Grammar.takes_expression_unconditional (ih fun t ht => ?_) fun t ht => (hs t ht).2.2
    exact ⟨(hs t ht).1, fun r' _ => (hs t ht).2.1 r'⟩
  | conditional _ hq _ hc _ ih iha ihb =>
    refine Grammar.takes_expression_conditional (ih ?_) hq (iha ?_) hc (ihb hs)
    · rintro t ⟨⟩
      exact ⟨Token.endsAtom_of_closer hq (by decide),
        fun r' _ => Token.not_continues_of_closer hq (by decide) r'⟩
    · exact Phrase.stops_of_closer hc (by decide) (by decide)
  | @single r _ _ _ _ ih =>
    have h := Grammar.takes_chain_single (ih fun t ht => ⟨(hs t ht).1, fun r' hr =>
      (hs t ht).2 r' (Nat.le_of_lt hr)⟩) fun t ht => (hs t ht).2 r (Nat.le_refl _)
    simpa [Phrase.Parsed] using h
  | @more r _ _ _ _ _ _ _ _ _ ht hop hr ih ihr =>
    -- An operator belongs to one rank, so that it cannot carry on a chain of a tighter one.
    obtain ⟨hf, htail⟩ := hr.formed
    have hleft := ih (by
      rintro t ⟨⟩
      refine ⟨Token.endsAtom_of_operator ht hop, fun r' hr' hc => ?_⟩
      rw [Token.eq_of_continues ht hop hc] at hr'
      exact Nat.lt_irrefl _ hr')
    have h := Grammar.takes_chain_more hleft ht hop (ihr hs)
    rwa [Grammar.combine_nest _ (Rank.rank_of_lookup hop) hf htail] at h
  | glued _ ht hr ih ihr =>
    obtain ⟨hf, htail⟩ := hr.formed
    have hleft := ih (by
      rintro t ⟨⟩
      refine ⟨Token.endsAtom_of_isNegative ht, fun r' hr' hc => ?_⟩
      rw [Token.eq_sum_of_continues ht hc] at hr'
      exact Nat.lt_irrefl _ hr')
    have h := Grammar.takes_chain_glued hleft ht (ihr hs)
    have hr : Operator.add.rank = .sum := rfl
    rwa [Grammar.combine_nest _ hr hf htail] at h
  | inner hr _ ih =>
    refine Grammar.takes_operand hr (ih fun t ht => ⟨(hs t ht).1, fun r' hr' => ?_⟩)
    exact (hs t ht).2 r' (Nat.lt_of_lt_of_le (Rank.number_lt_of_tighter? hr) hr')
  | innermost _ ih => exact Grammar.takes_operand_power (ih fun t ht => (hs t ht).1)
  | negation ht _ ih => exact Grammar.takes_atom_negation ht (ih hs)
  | plus hp ht _ ih => exact Grammar.takes_atom_plus hp ht (ih hs)
  | brackets ht _ hu ih =>
    have h := ih (Phrase.stops_of_closer hu (by decide) (by decide))
    exact Grammar.takes_atom_brackets ht (Grammar.takes_bracketed h hu)
  | bars ht _ hu ih =>
    exact Grammar.takes_atom_bars ht (ih (Phrase.stops_of_closer hu (by decide) (by decide))) hu
  | call ht hu hf _ hv ih => exact Grammar.takes_atom_call ht hu hf (ih ⟨_, _, rfl, hv⟩) hv
  | named ht hv => exact Grammar.takes_atom_named ht hv hs
  | number ht hd => exact Grammar.takes_atom_number ht (Grammar.takes_literal_number ht hd hs)
  | scaled ht hd hq hk =>
    exact Grammar.takes_atom_number ht (Grammar.takes_literal_scaled ht hd hq hk)
  | noArguments =>
    obtain ⟨v, us, rfl, hv⟩ := hs
    exact Grammar.takesArguments_nil hv
  | someArguments h hm ih ihs =>
    obtain ⟨t, us, rfl, ht⟩ := h.begins
    exact Grammar.takesArguments_first ht (ih (hm.stops_of_moreArguments hs)) (ihs hs)
  | noMore =>
    obtain ⟨v, us, rfl, hv⟩ := hs
    exact Grammar.takesArguments_nil hv
  | oneMore ht _ hm ih ihs =>
    exact Grammar.takesArguments_next ht (ih (hm.stops_of_moreArguments hs)) (ihs hs)

/-- An expression that takes all the tokens is parsed just as it is read. -/
theorem takes_expression_iff (place : Position) :
    Grammar.Takes (Grammar.expression scope (.ok place) ts) e [] ↔
      Reads scope (.expression e) ts [] :=
  ⟨Grammar.reads_of_expression, fun h => parsed_of_reads h (by rintro t ⟨⟩)⟩

end Acceptance

end Reckon
