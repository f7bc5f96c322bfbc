import Reckon.Proofs.Reading

/-!
# What the grammar parses

The rules of the grammar against the conventional reading of tokens: whatever a rule parses can be
read. Each rule has a lemma that takes a successful parse apart.

## Main definitions

* `Grammar.Takes` — a rule succeeds, with a value and with what it leaves.

## Main statements

* `Grammar.reads_of_expression` — what is parsed can be read.
-/

namespace Reckon.Grammar

variable {α β γ : Type} {ts us rest : List Token} {ending : Except Error Position}

/-- A rule succeeds with a value and leaves some tokens. -/
def Takes (x : Except Error (Parse β ts)) (v : β) (rest : List Token) : Prop :=
  ∃ p, x = .ok p ∧ p.value = v ∧ p.rest = rest

theorem Takes.length_lt {x : Except Error (Parse β ts)} {v : β} (h : Takes x v rest) :
    rest.length < ts.length := by
  obtain ⟨p, -, -, rfl⟩ := h
  exact p.shorter

theorem Takes.eq {x : Except Error (Parse β ts)} {v v' : β} {rest' : List Token}
    (h : Takes x v rest) (h' : Takes x v' rest') : v = v' ∧ rest = rest' := by
  obtain ⟨p, rfl, rfl, rfl⟩ := h
  obtain ⟨p', hp, rfl, rfl⟩ := h'
  obtain rfl := Except.ok.inj hp
  exact ⟨rfl, rfl⟩

@[simp] theorem takes_ok {p : Parse β ts} {v : β} :
    Takes (.ok p) v rest ↔ p.value = v ∧ p.rest = rest := by
  simp [Takes]

@[simp] theorem not_takes_error {e : Error} {v : β} :
    ¬ Takes (.error e : Except Error (Parse β ts)) v rest := by
  simp [Takes]

theorem takes_bind {x : Except Error γ} {f : γ → Except Error (Parse β ts)} {v : β} :
    Takes (x >>= f) v rest ↔ ∃ a, x = .ok a ∧ Takes (f a) v rest := by
  cases x <;> simp [bind, Except.bind]

theorem takes_map {x : Except Error γ} {f : γ → Parse β ts} {v : β} :
    Takes (x.map f) v rest ↔ ∃ a, x = .ok a ∧ (f a).value = v ∧ (f a).rest = rest := by
  cases x <;> simp [Except.map]

/-! ### Single tokens -/

@[simp] theorem front_cons (t : Token) : front ending (t :: ts) = .ok t := rfl

theorem takes_expect {s : String} {u : Unit} :
    Takes (expect ending s ts) u rest ↔ ∃ t, ts = t :: rest ∧ t.isSymbol s := by
  cases ts with
  | nil => cases ending <;> simp [expect, refuse, front, bind, Except.bind, Except.map]
  | cons t ts =>
    by_cases h : t.isSymbol s
    · simp [expect, h]
    · simp [expect, h, refuse, bind, Except.bind]

theorem operator?_eq_some {r : Rank} {p : Parse Operator ts} :
    operator? ending r ts = .ok (some p) ↔
      ∃ t, ts = t :: p.rest ∧ t.isAnySymbol ∧ r.operators.lookup t.trigger = some p.value := by
  cases ts with
  | nil => exact absurd p.shorter (by simp)
  | cons t ts =>
    rcases p with ⟨op, rest, hr⟩
    by_cases h : t.isAnySymbol
    · simp [operator?, h]
      grind
    · simp [operator?, h]

variable [Arithmetic α] [Numeral α] {scope : Scope α} {e : Expr α}

/-- A literal is read as a number with or without a quantifier. -/
theorem reads_of_literal (h : Takes (literal ending ts) e rest) :
    Reads scope (.atom e) ts rest := by
  cases ts with
  | nil => cases ending <;> simp [literal, refuse, front, bind, Except.bind, Except.map] at h
  | cons t ts =>
    rw [literal] at h
    split at h
    · next ht =>
      cases hd : Decimal.read? t.contents.toList with
      | none => simp [hd] at h
      | some d =>
        cases ts with
        | nil =>
          simp only [hd] at h
          obtain ⟨_, -, rfl, rfl⟩ := takes_map.1 h
          exact .number ht hd
        | cons q ts =>
          simp only [hd] at h
          split at h
          · next hq =>
            split at h
            · next k hk =>
              obtain ⟨rfl, rfl⟩ := takes_ok.1 h
              exact .scaled ht hd hq hk
            · simp at h
          · obtain ⟨rfl, rfl⟩ := takes_ok.1 h
            exact .number ht hd
    · simp at h

/-! ### Taking a parse apart -/

theorem Takes.of_expression (h : Takes (expression scope ending ts) e rest) :
    ∃ c us, Takes (chain scope ending .boolean ts) c us ∧
      ((∃ q vs a colon ws b, us = q :: vs ∧ q.isSymbol "?" ∧
          Takes (expression scope ending vs) a (colon :: ws) ∧ colon.isSymbol ":" ∧
          Takes (expression scope ending ws) b rest ∧ e = .call conditional [c, a, b]) ∨
        (e = c ∧ rest = us)) := by
  rw [expression] at h
  obtain ⟨c, hc, h⟩ := takes_bind.1 h
  obtain ⟨next, hnext, h⟩ := takes_bind.1 h
  refine ⟨c.value, c.rest, ⟨c, hc, rfl, rfl⟩, ?_⟩
  split at h
  · obtain ⟨mark, hmark, h⟩ := takes_bind.1 h
    obtain ⟨a, ha, h⟩ := takes_bind.1 h
    obtain ⟨colon, hcolon, h⟩ := takes_bind.1 h
    obtain ⟨b, hb, h⟩ := takes_bind.1 h
    obtain ⟨rfl, rfl⟩ := takes_ok.1 h
    obtain ⟨q, hq, hqs⟩ := takes_expect.1 ⟨mark, hmark, rfl, rfl⟩
    obtain ⟨t, ht, hts⟩ := takes_expect.1 ⟨colon, hcolon, rfl, rfl⟩
    exact .inl ⟨q, _, _, t, _, _, hq, hqs, ⟨a, ha, rfl, ht⟩, hts, ⟨b, hb, rfl, rfl⟩, rfl⟩
  · obtain ⟨rfl, rfl⟩ := takes_ok.1 h
    exact .inr ⟨rfl, rfl⟩

theorem Takes.of_chain {r : Rank} (h : Takes (chain scope ending r ts) e rest) :
    ∃ left us, Takes (operand scope ending r ts) left us ∧
      ((∃ t vs op right, us = t :: vs ∧ t.isAnySymbol ∧ r.operators.lookup t.trigger = some op ∧
          Takes (chain scope ending r vs) right rest ∧ e = combine r left op right) ∨
        (∃ t vs right, us = t :: vs ∧ r = .sum ∧ isNegative t ∧
          Takes (chain scope ending .sum us) right rest ∧ e = .graft left .add right) ∨
        (e = left ∧ rest = us)) := by
  rw [chain] at h
  obtain ⟨left, hleft, h⟩ := takes_bind.1 h
  obtain ⟨op?, hop, h⟩ := takes_bind.1 h
  refine ⟨left.value, left.rest, ⟨left, hleft, rfl, rfl⟩, ?_⟩
  cases op? with
  | some op =>
    obtain ⟨right, hright, h⟩ := takes_bind.1 h
    obtain ⟨rfl, rfl⟩ := takes_ok.1 h
    obtain ⟨t, ht, hts, hlookup⟩ := operator?_eq_some.1 hop
    exact .inl ⟨t, _, _, _, ht, hts, hlookup, ⟨right, hright, rfl, rfl⟩, rfl⟩
  | none =>
    obtain ⟨next, hnext, h⟩ := takes_bind.1 h
    split at h
    · next hneg =>
      obtain ⟨hr, hneg⟩ : r = .sum ∧ isNegative next := by simpa using hneg
      obtain ⟨right, hright, h⟩ := takes_bind.1 h
      obtain ⟨rfl, rfl⟩ := takes_ok.1 h
      -- Something was parsed after `left`, so that `next` is not the end.
      have hcons : ∃ vs, left.rest = next :: vs := by
        cases hl : left.rest with
        | nil => exact absurd right.shorter (by simp [hl])
        | cons t vs =>
          rw [hl] at hnext
          exact ⟨vs, by rw [Except.ok.inj hnext]⟩
      obtain ⟨vs, hvs⟩ := hcons
      exact .inr (.inl ⟨next, vs, _, hvs, hr, hneg, ⟨right, hright, rfl, rfl⟩, rfl⟩)
    · obtain ⟨rfl, rfl⟩ := takes_ok.1 h
      exact .inr (.inr ⟨rfl, rfl⟩)

theorem Takes.of_operand {r : Rank} (h : Takes (operand scope ending r ts) e rest) :
    (∃ r', r.tighter? = some r' ∧ Takes (chain scope ending r' ts) e rest) ∨
      (r = .power ∧ Takes (atom scope ending ts) e rest) := by
  unfold operand at h
  cases r with
  | power => exact .inr ⟨rfl, h⟩
  | _ => exact .inl ⟨_, rfl, h⟩

theorem Takes.of_bracketed (h : Takes (bracketed scope ending ts) e rest) :
    ∃ a u, Takes (expression scope ending ts) a (u :: rest) ∧ u.isSymbol ")" ∧ e = a.sealTop := by
  rw [bracketed] at h
  obtain ⟨a, ha, h⟩ := takes_bind.1 h
  obtain ⟨close, hclose, h⟩ := takes_bind.1 h
  obtain ⟨rfl, rfl⟩ := takes_ok.1 h
  obtain ⟨u, hu, hus⟩ := takes_expect.1 ⟨close, hclose, rfl, rfl⟩
  exact ⟨a.value, u, ⟨a, ha, rfl, hu⟩, hus, rfl⟩

theorem Takes.of_arguments {more : Bool} {es : List (Expr α)}
    {close : { rest : List Token // rest.length ≤ ts.length }}
    (h : arguments scope ending more ts = .ok (es, close)) :
    (es = [] ∧ close.1 = ts) ∨
      ∃ us a vs as close', (if more then ∃ t, ts = t :: us ∧ t.isSymbol "," else us = ts) ∧
        Takes (expression scope ending us) a vs ∧ es = a :: as ∧
        arguments scope ending true vs = .ok (as, close') ∧ close'.1 = close.1 := by
  cases ts with
  | nil =>
    cases ending with
    | error => simp [arguments, Except.map] at h
    | ok =>
      simp only [arguments, Except.map] at h
      obtain ⟨rfl, rfl⟩ := Prod.mk.inj (Except.ok.inj h)
      exact .inl ⟨rfl, rfl⟩
  | cons t ts =>
    unfold arguments at h
    simp only [bind, Except.bind] at h
    split at h
    · obtain ⟨rfl, rfl⟩ := Prod.mk.inj (Except.ok.inj h)
      exact .inl ⟨rfl, rfl⟩
    refine .inr ?_
    split at h
    · next hmore =>
      split at h
      · simp at h
      · next comma hcomma =>
        obtain ⟨u, hu, hus⟩ := takes_expect.1 ⟨comma, hcomma, rfl, rfl⟩
        split at h
        · simp at h
        · next a ha =>
          split at h
          · simp at h
          · next as has =>
            obtain ⟨rfl, rfl⟩ := Prod.mk.inj (Except.ok.inj h)
            exact ⟨_, _, _, _, as.2, by rw [if_pos hmore]; exact ⟨u, hu, hus⟩,
              ⟨a, ha, rfl, rfl⟩, rfl, has, rfl⟩
    · next hmore =>
      split at h
      · simp at h
      · next a ha =>
        split at h
        · simp at h
        · next as has =>
          obtain ⟨rfl, rfl⟩ := Prod.mk.inj (Except.ok.inj h)
          exact ⟨_, _, _, _, as.2, by simp [hmore], ⟨a, ha, rfl, rfl⟩, rfl, has, rfl⟩

/-! ### What is parsed can be read -/

/-- Whatever is parsed from fewer than `n` tokens can be read. -/
structure Sound (scope : Scope α) (ending : Except Error Position) (n : Nat) : Prop where
  expression {ts rest : List Token} {e : Expr α} : ts.length < n →
    Takes (expression scope ending ts) e rest → Reads scope (.expression e) ts rest
  chain {r : Rank} {ts rest : List Token} {e : Expr α} : ts.length < n →
    Takes (chain scope ending r ts) e rest →
      ∃ first tail, e = r.nest first tail ∧ Reads scope (.chain r first tail) ts rest
  atom {ts rest : List Token} {e : Expr α} : ts.length < n →
    Takes (atom scope ending ts) e rest → Reads scope (.atom e) ts rest

namespace Sound

variable {n : Nat}

theorem reads_arguments (hs : Sound scope ending n) {more : Bool} {ts : List Token}
    {es : List (Expr α)} {close : { rest : List Token // rest.length ≤ ts.length }}
    (hts : ts.length < n) (h : arguments scope ending more ts = .ok (es, close)) :
    Reads scope (if more then .moreArguments es else .arguments es) ts close.1 := by
  induction es generalizing more ts with
  | nil =>
    obtain ⟨-, hclose⟩ | ⟨_, _, _, _, _, -, -, hes, -⟩ := Takes.of_arguments h
    · rw [hclose]
      cases more
      · exact .noArguments
      · exact .noMore
    · cases hes
  | cons a as ih =>
    obtain ⟨hes, -⟩ | ⟨us, a, vs, as, close', hus, ha, hes, has, hclose⟩ := Takes.of_arguments h
    · cases hes
    obtain ⟨rfl, rfl⟩ := List.cons.inj hes
    have hvs := ha.length_lt
    rw [← hclose]
    cases more with
    | false =>
      obtain rfl : us = ts := by simpa using hus
      exact .someArguments (hs.expression hts ha) (ih (by omega) has)
    | true =>
      obtain ⟨t, rfl, ht⟩ : ∃ t, ts = t :: us ∧ t.isSymbol "," := by simpa using hus
      simp only [List.length_cons] at hts
      exact .oneMore ht (hs.expression (by omega) ha) (ih (by omega) has)

theorem reads_bracketed (hs : Sound scope ending n) (hts : ts.length < n) {t : Token}
    (ht : t.isSymbol "(") (h : Takes (bracketed scope ending ts) e rest) :
    Reads scope (.atom e) (t :: ts) rest := by
  obtain ⟨a, u, ha, hu, rfl⟩ := h.of_bracketed
  exact .brackets ht (hs.expression hts ha) hu

theorem reads_plus (hs : Sound scope ending n) {p : Token} (hts : ts.length < n)
    (hp : p.isSymbol "+") (hm : p.isSymbol "-" = false)
    (h : Takes (Grammar.atom scope ending (p :: ts)) e rest) :
    Reads scope (.atom e) (p :: ts) rest := by
  simp only [Grammar.atom, hm, hp, Bool.false_eq_true, if_false, if_true] at h
  cases ts with
  | nil => cases ending <;> simp [front, Except.map, bind, Except.bind, Token.ending, Token.empty,
      Token.isSymbol, Token.matchesTrigger, Token.isNumber] at h
  | cons t ts =>
    simp only [List.length_cons] at hts
    obtain ⟨_, hfront, hn⟩ := takes_bind.1 h
    obtain rfl := Except.ok.inj hfront
    split at hn
    · next ht =>
      obtain ⟨a, ha, hb⟩ := takes_bind.1 hn
      obtain ⟨rfl, rfl⟩ := takes_ok.1 hb
      exact .plus hp (.inl ht) (hs.reads_bracketed (by omega) ht ⟨a, ha, rfl, rfl⟩)
    · split at hn
      · next ht =>
        obtain ⟨x, hx, hb⟩ := takes_bind.1 hn
        obtain ⟨rfl, rfl⟩ := takes_ok.1 hb
        exact .plus hp (.inr ht) (reads_of_literal ⟨x, hx, rfl, rfl⟩)
      · simp at hn

theorem reads_name (hs : Sound scope ending n) {t : Token} (hts : ts.length < n)
    (ht : t.isIdentifier) (h : Takes (Grammar.atom scope ending (t :: ts)) e rest) :
    Reads scope (.atom e) (t :: ts) rest := by
  have hsym (s : String) : t.isSymbol s = false := by
    simp only [Token.isIdentifier, beq_iff_eq] at ht
    simp [Token.isSymbol, Token.matchesTrigger, ht]
  simp only [Grammar.atom, hsym, ht, Bool.false_eq_true, if_false, if_true] at h
  obtain ⟨next, hnext, hn⟩ := takes_bind.1 h
  split at hn
  · next hu =>
    cases ts with
    | nil =>
      -- The end of the tokens is no opening bracket.
      obtain ⟨place, rfl⟩ : ∃ place, next = .ending place := by
        cases ending with
        | error => simp [front, Except.map] at hnext
        | ok place => exact ⟨place, (Except.ok.inj hnext).symm⟩
      cases hu
    | cons u us =>
      obtain rfl := Except.ok.inj hnext
      split at hn
      · simp at hn
      · next f hf =>
        obtain ⟨⟨args, close⟩, hargs, hb⟩ := takes_bind.1 hn
        obtain ⟨bracket, hbracket, hb⟩ := takes_bind.1 hb
        obtain ⟨rfl, rfl⟩ := takes_ok.1 hb
        obtain ⟨v, hv, hvs⟩ := takes_expect.1 ⟨bracket, hbracket, rfl, rfl⟩
        simp only [List.length_cons] at hts
        have hreads := hs.reads_arguments (by simp only [List.tail_cons]; omega) hargs
        rw [hv] at hreads
        exact .call ht hu hf hreads hvs
  · split at hn
    · simp at hn
    · next v hv =>
      obtain ⟨rfl, rfl⟩ := takes_ok.1 hn
      exact .named ht hv

theorem reads_atom (hs : Sound scope ending n) (hts : ts.length ≤ n)
    (h : Takes (Grammar.atom scope ending ts) e rest) : Reads scope (.atom e) ts rest := by
  cases ts with
  | nil =>
    rw [Grammar.atom] at h
    exact reads_of_literal h
  | cons t ts =>
    have hts : ts.length < n := hts
    have hatom := h
    unfold Grammar.atom at h
    split at h
    · next ht =>
      obtain ⟨a, ha, hb⟩ := takes_bind.1 h
      obtain ⟨rfl, rfl⟩ := takes_ok.1 hb
      exact .negation ht (hs.atom hts ⟨a, ha, rfl, rfl⟩)
    split at h
    · next hm hp => exact hs.reads_plus hts hp (by simpa using hm) hatom
    split at h
    · next ht =>
      obtain ⟨a, ha, hb⟩ := takes_bind.1 h
      obtain ⟨rfl, rfl⟩ := takes_ok.1 hb
      exact hs.reads_bracketed hts ht ⟨a, ha, rfl, rfl⟩
    split at h
    · next ht =>
      obtain ⟨a, ha, hb⟩ := takes_bind.1 h
      obtain ⟨bar, hbar, hb⟩ := takes_bind.1 hb
      obtain ⟨rfl, rfl⟩ := takes_ok.1 hb
      obtain ⟨u, hu, hus⟩ := takes_expect.1 ⟨bar, hbar, rfl, rfl⟩
      exact .bars ht (hs.expression hts ⟨a, ha, rfl, hu⟩) hus
    split at h
    · next ht => exact hs.reads_name hts ht hatom
    · exact reads_of_literal h

theorem reads_chain_of_operand (hs : Sound scope ending n) {r : Rank} (hts : ts.length ≤ n)
    (hop : ∀ {e rest}, Takes (operand scope ending r ts) e rest →
      Reads scope (.operand r e) ts rest)
    (h : Takes (Grammar.chain scope ending r ts) e rest) :
    ∃ first tail, e = r.nest first tail ∧ Reads scope (.chain r first tail) ts rest := by
  obtain ⟨left, us, hleft, hp⟩ := h.of_chain
  have hus := hleft.length_lt
  have hl := hop hleft
  obtain ⟨t, vs, op, right, rfl, ht, hlookup, hright, rfl⟩ |
    ⟨t, vs, right, rfl, rfl, ht, hright, rfl⟩ | ⟨rfl, rfl⟩ := hp
  · simp only [List.length_cons] at hus
    obtain ⟨first, tail, rfl, hr⟩ := hs.chain (by omega) hright
    obtain ⟨hf, htail⟩ := hr.formed
    exact ⟨left, (op, first) :: tail, combine_nest left (Rank.rank_of_lookup hlookup) hf htail,
      .more hl ht hlookup hr⟩
  · obtain ⟨first, tail, rfl, hr⟩ := hs.chain (by omega) hright
    obtain ⟨hf, htail⟩ := hr.formed
    exact ⟨left, (.add, first) :: tail, combine_nest (r := .sum) left rfl hf htail,
      .glued hl ht hr⟩
  · exact ⟨_, [], by simp, .single hl⟩

/-- Ranks from the tightest to the loosest. -/
theorem reads_chain (hs : Sound scope ending n) (r : Rank) (hts : ts.length ≤ n) {rest : List Token}
    {e : Expr α} (h : Takes (Grammar.chain scope ending r ts) e rest) :
    ∃ first tail, e = r.nest first tail ∧ Reads scope (.chain r first tail) ts rest := by
  refine hs.reads_chain_of_operand hts (fun {e rest} h => ?_) h
  obtain ⟨r', hr, hp⟩ | ⟨rfl, hp⟩ := h.of_operand
  · obtain ⟨first, tail, rfl, hchain⟩ := hs.reads_chain r' hts hp
    exact .inner hr hchain
  · exact .innermost (hs.reads_atom hts hp)
-- The tokens stay the same on the way down, and the rank gets tighter.
termination_by 5 - r.number
decreasing_by
  have := Rank.number_lt_of_tighter? hr
  have := r'.number_le
  omega

theorem reads_expression (hs : Sound scope ending n) (hts : ts.length ≤ n)
    (h : Takes (Grammar.expression scope ending ts) e rest) :
    Reads scope (.expression e) ts rest := by
  obtain ⟨c, us, hc, hp⟩ := h.of_expression
  have hus := hc.length_lt
  obtain ⟨first, tail, rfl, hchain⟩ := hs.reads_chain .boolean hts hc
  obtain ⟨q, vs, a, colon, ws, b, rfl, hq, ha, hcolon, hb, rfl⟩ | ⟨rfl, rfl⟩ := hp
  · have hws := ha.length_lt
    simp only [List.length_cons] at hus hws
    exact .conditional hchain hq (hs.expression (by omega) ha) hcolon (hs.expression (by omega) hb)
  · exact .unconditional hchain

end Sound

theorem sound (scope : Scope α) (ending : Except Error Position) (n : Nat) :
    Sound scope ending n := by
  induction n with
  | zero => constructor <;> intros <;> omega
  | succ n hs =>
    exact ⟨fun hts => hs.reads_expression (by omega), fun hts => hs.reads_chain _ (by omega),
      fun hts => hs.reads_atom (by omega)⟩

/-- What is parsed as an expression can be read as one. -/
theorem reads_of_expression (h : Takes (expression scope ending ts) e rest) :
    Reads scope (.expression e) ts rest :=
  (sound scope ending _).expression (Nat.lt_succ_self _) h

end Reckon.Grammar
