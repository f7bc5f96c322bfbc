import Reckon.Proofs.Accepting

/-!
# The language of formulas

Which tokens are a formula, as a grammar without any reference to parsing: a derivation puts token
lists together, and asks of names and numbers that they mean something. The grammar is the one that
the parser is written for, so that the parser, which decides at every token how to go on without
ever going back, finds a derivation whenever there is one.

## Main definitions

* `Category` — what the grammar derives: expressions, chains of operators, atoms and arguments.
* `Derives` — the rules.

## Main statements

* `Grammar.accepts_iff_derives` — the parser accepts what can be derived, and nothing else.
-/

namespace Reckon

/-- What can be derived. For each rank of operators there is a category of chains. -/
inductive Category where
  | expression
  | chain (r : Rank)
  | atom
  | arguments
  /-- Arguments with a comma before each. -/
  | moreArguments

/-- What stands between operators of a rank: chains of the next tighter rank, or atoms. -/
def Rank.operands (r : Rank) : Category :=
  match r.tighter? with
  | some r' => .chain r'
  | none => .atom

/-- A plus sign or nothing. -/
def OptionalPlus (ts : List Token) : Prop := ts = [] ∨ ∃ p : Token, ts = [p] ∧ p.isSymbol "+"

/-- The spellings of the quantifiers. -/
def Quantifier.spellings : List String := ["n", "u", "m", "k", "K", "M", "G"]

variable {α : Type}

/-- The rules of the grammar. -/
inductive Derives (scope : Scope α) : Category → List Token → Prop
  | unconditional {ts} (h : Derives scope (.chain .boolean) ts) : Derives scope .expression ts
  | conditional {cs as bs q colon} (h : Derives scope (.chain .boolean) cs) (hq : q.isSymbol "?")
      (ha : Derives scope .expression as) (hc : colon.isSymbol ":")
      (hb : Derives scope .expression bs) :
      Derives scope .expression (cs ++ q :: (as ++ colon :: bs))
  | single {r ts} (h : Derives scope r.operands ts) : Derives scope (.chain r) ts
  | more {r s op t ts us} (h : Derives scope r.operands ts) (hs : (s, op) ∈ r.operators)
      (ht : t.isSymbol s) (hr : Derives scope (.chain r) us) :
      Derives scope (.chain r) (ts ++ t :: us)
  /-- A sum is continued by a sum that begins with a number with a minus sign. -/
  | glued {t ts us} (h : Derives scope Rank.sum.operands ts) (ht : Grammar.isNegative t)
      (hr : Derives scope (.chain .sum) (t :: us)) : Derives scope (.chain .sum) (ts ++ t :: us)
  | negation {t ts} (ht : t.isSymbol "-") (h : Derives scope .atom ts) :
      Derives scope .atom (t :: ts)
  | brackets {plus t u ts} (hp : OptionalPlus plus) (ht : t.isSymbol "(")
      (h : Derives scope .expression ts) (hu : u.isSymbol ")") :
      Derives scope .atom (plus ++ t :: (ts ++ [u]))
  | bars {t u ts} (ht : t.isSymbol "|") (h : Derives scope .expression ts) (hu : u.isSymbol "|") :
      Derives scope .atom (t :: (ts ++ [u]))
  | call {t u v ts} (ht : t.isIdentifier) (hf : (scope.findFunction? t.contents).isSome)
      (hu : u.isSymbol "(") (h : Derives scope .arguments ts) (hv : v.isSymbol ")") :
      Derives scope .atom (t :: u :: (ts ++ [v]))
  | named {t} (ht : t.isIdentifier) (hv : (scope.findVariable? t.contents).isSome) :
      Derives scope .atom [t]
  | number {plus t} (hp : OptionalPlus plus) (ht : t.isNumber)
      (hd : (Decimal.read? t.contents.toList).isSome) : Derives scope .atom (plus ++ [t])
  | scaled {plus t q} (hp : OptionalPlus plus) (ht : t.isNumber)
      (hd : (Decimal.read? t.contents.toList).isSome) (hq : q.isIdentifier)
      (hk : q.contents ∈ Quantifier.spellings) : Derives scope .atom (plus ++ [t, q])
  | noArguments : Derives scope .arguments []
  | someArguments {ts us} (h : Derives scope .expression ts)
      (hs : Derives scope .moreArguments us) : Derives scope .arguments (ts ++ us)
  | noMore : Derives scope .moreArguments []
  | oneMore {t ts us} (ht : t.isSymbol ",") (h : Derives scope .expression ts)
      (hs : Derives scope .moreArguments us) : Derives scope .moreArguments (t :: (ts ++ us))

/-! ### Spellings -/

theorem Quantifier.isSome_named?_iff {s : String} :
    (Quantifier.named? s).isSome ↔ s ∈ spellings := by
  unfold named? spellings
  split <;> simp_all

/-- A spelling is looked up for a rank if it is listed for it. -/
theorem Rank.exists_lookup_iff {r : Rank} {s : String} :
    (∃ op, r.operators.lookup s = some op) ↔ ∃ op, (s, op) ∈ r.operators := by
  constructor
  · rintro ⟨op, h⟩
    obtain ⟨before, after, he, -⟩ := List.lookup_eq_some_iff.1 h
    exact ⟨op, by simp [he]⟩
  · rintro ⟨op, h⟩
    cases hl : r.operators.lookup s with
    | some op' => exact ⟨op', rfl⟩
    | none =>
      have hall := List.lookup_eq_none_iff.1 hl (s, op) h
      simp at hall

namespace Derives

variable {scope : Scope α} {c : Category} {r : Rank} {p t : Token} {ts us rest : List Token}

/-- A plus sign may be put in front of a bracket or a number. -/
theorem plus (hp : p.isSymbol "+") (ht : t.isSymbol "(" ∨ t.isNumber)
    (h : Derives scope .atom (t :: ts)) : Derives scope .atom (p :: t :: ts) := by
  have hsymbol {s : String} (hs : s ≠ "(") : t.isSymbol s = false := by
    obtain ht | ht := ht
    · exact Token.isSymbol_eq_false ht hs.symm
    · exact Token.isSymbol_of_isNumber ht s
  have hname : t.isIdentifier = false := by
    obtain ht | ht := ht
    · exact Token.isIdentifier_of_isSymbol ht
    · exact Token.isIdentifier_of_isNumber ht
  -- The token in front is `t` itself, since it is no plus sign.
  have hnone {plus : List Token} {u : Token} {us : List Token} (hplus : OptionalPlus plus)
      (he : plus ++ u :: us = t :: ts) : plus = [] := by
    obtain rfl | ⟨p', rfl, hp'⟩ := hplus
    · rfl
    · obtain ⟨rfl, -⟩ := List.cons.inj he
      rw [hsymbol (by decide)] at hp'
      cases hp'
  have hone : OptionalPlus [p] := .inr ⟨p, rfl, hp⟩
  generalize he : t :: ts = all at h
  cases h with
  | negation hm => rw [← (List.cons.inj he).1, hsymbol (by decide)] at hm; cases hm
  | bars hb => rw [← (List.cons.inj he).1, hsymbol (by decide)] at hb; cases hb
  | call hi => rw [← (List.cons.inj he).1, hname] at hi; cases hi
  | named hi => rw [← (List.cons.inj he).1, hname] at hi; cases hi
  | brackets hplus ht h hu =>
    obtain rfl := hnone hplus he.symm
    exact .brackets hone ht h hu
  | number hplus ht hd =>
    obtain rfl := hnone hplus he.symm
    exact .number hone ht hd
  | scaled hplus ht hd hq hk =>
    obtain rfl := hnone hplus he.symm
    exact .scaled hone ht hd hq hk

end Derives

/-! ### What is read can be derived -/

/-- The category of what is read. -/
def Phrase.category : Phrase α → Category
  | expression _ => .expression
  | chain r _ _ => .chain r
  | operand r _ => r.operands
  | atom _ => .atom
  | arguments _ => .arguments
  | moreArguments _ => .moreArguments

section Readings

variable [Arithmetic α] [Numeral α] {scope : Scope α} {ph : Phrase α} {ts rest : List Token}

/-- The tokens that a reading takes can be derived. -/
theorem Reads.exists_derives (h : Reads scope ph ts rest) :
    ∃ taken, ts = taken ++ rest ∧ Derives scope ph.category taken := by
  induction h with
  | unconditional _ ih =>
    obtain ⟨taken, rfl, ih⟩ := ih
    exact ⟨taken, rfl, .unconditional ih⟩
  | @conditional _ _ _ _ q c _ _ _ _ _ hq _ hc _ ih iha ihb =>
    obtain ⟨cs, rfl, ih⟩ := ih
    obtain ⟨as, rfl, iha⟩ := iha
    obtain ⟨bs, rfl, ihb⟩ := ihb
    exact ⟨cs ++ q :: (as ++ c :: bs), by simp, .conditional ih hq iha hc ihb⟩
  | single _ ih =>
    obtain ⟨taken, rfl, ih⟩ := ih
    exact ⟨taken, rfl, .single ih⟩
  | @more _ _ _ _ _ t _ _ _ _ ht hop _ ih ihr =>
    obtain ⟨ts, rfl, ih⟩ := ih
    obtain ⟨us, rfl, ihr⟩ := ihr
    obtain ⟨op, hmem⟩ := Rank.exists_lookup_iff.1 ⟨_, hop⟩
    have hsym : t.isSymbol t.trigger :=
      Token.isSymbol_iff.2 ⟨by simpa [Token.isAnySymbol] using ht, rfl⟩
    exact ⟨ts ++ t :: us, by simp, .more ih hmem hsym ihr⟩
  | @glued _ _ _ t _ _ _ _ ht hr ih ihr =>
    obtain ⟨ts, rfl, ih⟩ := ih
    obtain ⟨us, hus, ihr⟩ := ihr
    -- The rest of the chain takes the number that it begins with.
    obtain ⟨us', hus', hne, -⟩ := hr.exists_taken
    obtain rfl : us = us' := List.append_cancel_right (hus.symm.trans hus')
    cases us with
    | nil => simp [Phrase.IsEmpty] at hne
    | cons u us =>
      obtain ⟨rfl, rfl⟩ := List.cons.inj hus
      exact ⟨ts ++ t :: us, by simp, .glued ih ht ihr⟩
  | @inner r _ _ _ _ _ hr _ ih =>
    obtain ⟨taken, rfl, ih⟩ := ih
    refine ⟨taken, rfl, ?_⟩
    show Derives scope r.operands taken
    rw [Rank.operands, hr]
    exact ih
  | innermost _ ih =>
    obtain ⟨taken, rfl, ih⟩ := ih
    exact ⟨taken, rfl, ih⟩
  | negation ht _ ih =>
    obtain ⟨taken, rfl, ih⟩ := ih
    exact ⟨_ :: taken, rfl, .negation ht ih⟩
  | plus hp ht h ih =>
    obtain ⟨taken, hts, ih⟩ := ih
    obtain ⟨taken', hts', hne, -⟩ := h.exists_taken
    obtain rfl : taken = taken' := List.append_cancel_right (hts.symm.trans hts')
    cases taken with
    | nil => simp [Phrase.IsEmpty] at hne
    | cons u taken =>
      obtain ⟨rfl, rfl⟩ := List.cons.inj hts
      exact ⟨_ :: _ :: taken, rfl, ih.plus hp ht⟩
  | @brackets _ t u _ _ ht _ hu ih =>
    obtain ⟨taken, rfl, ih⟩ := ih
    exact ⟨t :: (taken ++ [u]), by simp, .brackets (.inl rfl) ht ih hu⟩
  | @bars _ t u _ _ ht _ hu ih =>
    obtain ⟨taken, rfl, ih⟩ := ih
    exact ⟨t :: (taken ++ [u]), by simp, .bars ht ih hu⟩
  | @call _ _ t u v _ _ ht hu hf _ hv ih =>
    obtain ⟨taken, rfl, ih⟩ := ih
    exact ⟨t :: u :: (taken ++ [v]), by simp, .call ht (by simp [hf]) hu ih hv⟩
  | named ht hv => exact ⟨[_], rfl, .named ht (by simp [hv])⟩
  | number ht hd => exact ⟨[_], rfl, .number (.inl rfl : OptionalPlus []) ht (by simp [hd])⟩
  | scaled ht hd hq hk =>
    exact ⟨[_, _], rfl, .scaled (.inl rfl : OptionalPlus []) ht (by simp [hd]) hq
      (Quantifier.isSome_named?_iff.1 (by simp [hk]))⟩
  | noArguments => exact ⟨[], rfl, .noArguments⟩
  | someArguments _ _ ih ihs =>
    obtain ⟨ts, rfl, ih⟩ := ih
    obtain ⟨us, rfl, ihs⟩ := ihs
    exact ⟨ts ++ us, by simp, .someArguments ih ihs⟩
  | noMore => exact ⟨[], rfl, .noMore⟩
  | oneMore ht _ _ ih ihs =>
    obtain ⟨ts, rfl, ih⟩ := ih
    obtain ⟨us, rfl, ihs⟩ := ihs
    exact ⟨_ :: (ts ++ us), by simp, .oneMore ht ih ihs⟩

/-! ### What can be derived is read -/

/-- Something of a category can be read off the front of `ts`. -/
def Category.Readable (scope : Scope α) (ts rest : List Token) : Category → Prop
  | expression => ∃ e, Reads scope (.expression e) ts rest
  | chain r => ∃ first tail, Reads scope (.chain r first tail) ts rest
  | atom => ∃ e, Reads scope (.atom e) ts rest
  | arguments => ∃ es, Reads scope (.arguments es) ts rest
  | moreArguments => ∃ es, Reads scope (.moreArguments es) ts rest

theorem Category.Readable.operand {r : Rank} (h : r.operands.Readable scope ts rest) :
    ∃ e, Reads scope (.operand r e) ts rest := by
  unfold Rank.operands at h
  cases hr : r.tighter? with
  | some r' =>
    rw [hr] at h
    obtain ⟨first, tail, h⟩ := h
    exact ⟨_, .inner hr h⟩
  | none =>
    rw [hr] at h
    obtain ⟨e, h⟩ := h
    obtain rfl : r = .power := by cases r <;> first | rfl | cases hr
    exact ⟨e, .innermost h⟩

theorem Category.Readable.optionalPlus {plus : List Token} {t : Token} (hp : OptionalPlus plus)
    (ht : t.isSymbol "(" ∨ t.isNumber) (h : atom.Readable scope (t :: ts) rest) :
    atom.Readable scope (plus ++ t :: ts) rest := by
  obtain rfl | ⟨p, rfl, hp⟩ := hp
  · exact h
  · obtain ⟨e, h⟩ := h
    exact ⟨e, .plus hp ht h⟩

/-- Whatever can be derived is read, whatever comes after it. -/
theorem Derives.readable {c : Category} (h : Derives scope c ts) (rest : List Token) :
    c.Readable scope (ts ++ rest) rest := by
  induction h generalizing rest with
  | unconditional _ ih =>
    obtain ⟨first, tail, ih⟩ := ih rest
    exact ⟨_, .unconditional ih⟩
  | conditional _ hq _ hc _ ih iha ihb =>
    simp only [List.append_assoc, List.cons_append]
    obtain ⟨first, tail, ih⟩ := ih _
    obtain ⟨a, iha⟩ := iha _
    obtain ⟨b, ihb⟩ := ihb rest
    exact ⟨_, .conditional ih hq iha hc ihb⟩
  | single _ ih =>
    obtain ⟨e, ih⟩ := (ih rest).operand
    exact ⟨e, [], .single ih⟩
  | @more r s op t ts us _ hs ht _ ih ihr =>
    simp only [List.append_assoc, List.cons_append]
    obtain ⟨e, ih⟩ := (ih _).operand
    obtain ⟨first, tail, ihr⟩ := ihr rest
    obtain ⟨hkind, rfl⟩ := Token.isSymbol_iff.1 ht
    obtain ⟨op', hlookup⟩ := Rank.exists_lookup_iff.2 ⟨op, hs⟩
    exact ⟨e, _, .more ih (by simp [Token.isAnySymbol, hkind]) hlookup ihr⟩
  | glued _ ht _ ih ihr =>
    simp only [List.append_assoc, List.cons_append]
    obtain ⟨e, ih⟩ := (ih _).operand
    obtain ⟨first, tail, ihr⟩ := ihr rest
    exact ⟨e, _, .glued ih ht ihr⟩
  | negation ht _ ih =>
    obtain ⟨e, ih⟩ := ih rest
    exact ⟨_, .negation ht ih⟩
  | brackets hp ht _ hu ih =>
    simp only [List.append_assoc, List.cons_append, List.nil_append]
    obtain ⟨e, ih⟩ := ih _
    exact .optionalPlus hp (.inl ht) ⟨_, .brackets ht ih hu⟩
  | bars ht _ hu ih =>
    simp only [List.append_assoc, List.cons_append, List.nil_append]
    obtain ⟨e, ih⟩ := ih _
    exact ⟨_, .bars ht ih hu⟩
  | call ht hf hu _ hv ih =>
    simp only [List.append_assoc, List.cons_append, List.nil_append]
    obtain ⟨es, ih⟩ := ih _
    obtain ⟨f, hf⟩ := Option.isSome_iff_exists.1 hf
    exact ⟨_, .call ht hu hf ih hv⟩
  | named ht hv =>
    obtain ⟨v, hv⟩ := Option.isSome_iff_exists.1 hv
    exact ⟨_, .named ht hv⟩
  | number hp ht hd =>
    simp only [List.append_assoc, List.cons_append, List.nil_append]
    obtain ⟨d, hd⟩ := Option.isSome_iff_exists.1 hd
    exact .optionalPlus hp (.inr ht) ⟨_, .number ht hd⟩
  | scaled hp ht hd hq hk =>
    simp only [List.append_assoc, List.cons_append, List.nil_append]
    obtain ⟨d, hd⟩ := Option.isSome_iff_exists.1 hd
    obtain ⟨k, hk⟩ := Option.isSome_iff_exists.1 (Quantifier.isSome_named?_iff.2 hk)
    exact .optionalPlus hp (.inr ht) ⟨_, .scaled ht hd hq hk⟩
  | noArguments => exact ⟨[], .noArguments⟩
  | someArguments _ _ ih ihs =>
    simp only [List.append_assoc]
    obtain ⟨e, ih⟩ := ih _
    obtain ⟨es, ihs⟩ := ihs rest
    exact ⟨_, .someArguments ih ihs⟩
  | noMore => exact ⟨[], .noMore⟩
  | oneMore ht _ _ ih ihs =>
    simp only [List.append_assoc, List.cons_append]
    obtain ⟨e, ih⟩ := ih _
    obtain ⟨es, ihs⟩ := ihs rest
    exact ⟨_, .oneMore ht ih ihs⟩

/-- The tokens before the end are parsed as one expression if and only if they can be derived. -/
theorem Grammar.accepts_iff_derives (scope : Scope α) (place : Position) (ts : List Token) :
    (∃ p, expression scope (.ok place) ts = .ok p ∧ p.rest = []) ↔
      Derives scope .expression ts := by
  constructor
  · rintro ⟨p, hp, hrest⟩
    obtain ⟨taken, hts, h⟩ := (reads_of_expression ⟨p, hp, rfl, hrest⟩).exists_derives
    rw [hts, List.append_nil]
    exact h
  · intro h
    obtain ⟨e, h⟩ := h.readable []
    rw [List.append_nil] at h
    obtain ⟨p, hp, -, hrest⟩ := (takes_expression_iff place).2 h
    exact ⟨p, hp, hrest⟩

end Readings

end Reckon
