import Reckon.Proofs.Accepting
import Mathlib.Data.List.Forall2

/-!
# Tokens that differ in one place

A reading depends on nothing of a token but its class, its contents and its trigger. If two lists of
tokens agree in these except in one place, then what is read off the one can be read off the other as
soon as this is known for that place: for an atom that begins there, and for a chain of operators
that goes on there. The trees correspond by any relation that the grammar's ways of building trees
keep.

## Main definitions

* `Token.Alike` — tokens that the grammar cannot tell apart.
* `Patched` — lists of tokens that are alike except in one place.
* `Congruence` — a relation of trees that operators and calls keep.
* `Patch` — what has to be known of the place.

## Main statements

* `Reads.patched` — readings carry over.
* `Reads.alike` — tokens that are alike are read as the same tree.
-/

namespace Reckon

/-! ### Tokens that are alike -/

namespace Token

/-- Tokens that differ at most in how they were written and in their place. -/
structure Alike (t t' : Token) : Prop where
  kind : t.kind = t'.kind
  contents : t.contents = t'.contents
  trigger : t.trigger = t'.trigger

variable {t t' : Token}

theorem Alike.refl (t : Token) : t.Alike t := ⟨rfl, rfl, rfl⟩

theorem Alike.symm (h : t.Alike t') : t'.Alike t := ⟨h.kind.symm, h.contents.symm, h.trigger.symm⟩

theorem Alike.isSymbol (h : t.Alike t') {s : String} (ht : t.isSymbol s) : t'.isSymbol s := by
  simpa only [Token.isSymbol, matchesTrigger, h.kind, h.trigger] using ht

theorem Alike.isAnySymbol (h : t.Alike t') (ht : t.isAnySymbol) : t'.isAnySymbol := by
  simpa only [Token.isAnySymbol, h.kind] using ht

theorem Alike.isIdentifier (h : t.Alike t') (ht : t.isIdentifier) : t'.isIdentifier := by
  simpa only [Token.isIdentifier, h.kind] using ht

theorem Alike.isNumber (h : t.Alike t') (ht : t.isNumber) : t'.isNumber := by
  simpa only [Token.isNumber, h.kind] using ht

theorem Alike.isNegative (h : t.Alike t') (ht : Grammar.isNegative t) : Grammar.isNegative t' := by
  simpa only [Grammar.isNegative, Token.isNumber, h.kind, h.contents] using ht

end Token

/-- Tokens that are alike one by one. -/
abbrev AllAlike : List Token → List Token → Prop := List.Forall₂ Token.Alike

theorem AllAlike.refl (ts : List Token) : AllAlike ts ts := List.forall₂_same.2 fun t _ => .refl t

theorem AllAlike.symm {ts ts' : List Token} (h : AllAlike ts ts') : AllAlike ts' ts :=
  h.flip.imp fun _ _ h => h.symm

/-- Lists of tokens that are alike but for one place, where they are related by `site`. A plus sign
does not stand right before the place. -/
inductive Patched (site : List Token → List Token → Prop) : List Token → List Token → Prop
  | after {ts ts'} (h : AllAlike ts ts') : Patched site ts ts'
  | here {ts ts'} (h : site ts ts') : Patched site ts ts'
  | before {t t' ts ts'} (h : t.Alike t') (hs : Patched site ts ts')
      (hplus : t.isSymbol "+" → ∀ u us, ts = u :: us → ∃ u' us', ts' = u' :: us' ∧ u.Alike u') :
      Patched site (t :: ts) (t' :: ts')

/-- Lists of tokens that are the same up to the place. -/
theorem Patched.append {site : List Token → List Token → Prop} {us ts ts' : List Token}
    (h : site ts ts') (hus : ∀ u ∈ us.getLast?, u.isSymbol "+" = false) :
    Patched site (us ++ ts) (us ++ ts') := by
  induction us with
  | nil => exact .here h
  | cons u us ih =>
    cases us with
    | nil =>
      refine .before (.refl u) (.here h) fun hplus => ?_
      rw [hus u rfl] at hplus
      cases hplus
    | cons v us =>
      refine .before (.refl u) (ih fun w hw => hus w (by simpa using hw)) fun _ => ?_
      rintro _ _ ⟨⟩
      exact ⟨v, us ++ ts', rfl, .refl v⟩

variable {α : Type}

/-! ### Relations of trees -/

/-- A relation of trees that is kept by all that the grammar makes of them. -/
structure Congruence (R : Expr α → Expr α → Prop) : Prop where
  refl (e : Expr α) : R e e
  sealTop {e e' : Expr α} (h : R e e') : R e.sealTop e'.sealTop
  binary {op : Operator} {l l' r r' : Expr α} {b : Bool} (hl : R l l') (hr : R r r') :
    R (.binary op l r b) (.binary op l' r' b)
  call {f : Function α} {es es' : List (Expr α)} (hes : List.Forall₂ R es es') :
    R (.call f es) (.call f es')

theorem congruence_eq : Congruence (α := α) Eq where
  refl _ := rfl
  sealTop h := by rw [h]
  binary hl hr := by rw [hl, hr]
  call hes := by
    rw [List.forall₂_eq_eq_eq] at hes
    rw [hes]

theorem congruence_true : Congruence fun _ _ : Expr α => True where
  refl _ := trivial
  sealTop _ := trivial
  binary _ _ := trivial
  call _ := trivial

/-- Operators with their right operands that make the same of left operands that are related. Only
in a sum may the operators be different ones. -/
def Linked (R : Expr α → Expr α → Prop) (r : Rank) (p p' : Operator × Expr α) : Prop :=
  (p.1 = p'.1 ∧ R p.2 p'.2) ∨
    (r = .sum ∧ ∀ e e', R e e' → R (.join p.1 e p.2) (.join p'.1 e' p'.2))

theorem Congruence.linked_refl {R : Expr α → Expr α → Prop} (hR : Congruence R) {r : Rank}
    (tail : List (Operator × Expr α)) : List.Forall₂ (Linked R r) tail tail :=
  List.forall₂_same.2 fun p _ => .inl ⟨rfl, hR.refl p.2⟩

section Nesting

variable {R : Expr α → Expr α → Prop} {r : Rank} {first first' : Expr α}
variable {tail tail' : List (Operator × Expr α)}

theorem Congruence.nestLeft (hR : Congruence R) (hf : R first first')
    (ht : List.Forall₂ (Linked R r) tail tail') :
    R (first.nestLeft tail) (first'.nestLeft tail') := by
  induction ht generalizing first first' with
  | nil => exact hf
  | @cons p p' _ _ hp _ ih =>
    refine ih ?_
    obtain ⟨op, e⟩ := p
    obtain ⟨op', e'⟩ := p'
    obtain ⟨hop, he⟩ | ⟨-, hp⟩ := hp
    · obtain rfl : op = op' := hop
      exact hR.binary hf he
    · exact hp _ _ hf

theorem Congruence.nestRight (hR : Congruence R) (hf : R first first')
    (ht : List.Forall₂ (Linked R .power) tail tail') :
    R (first.nestRight tail) (first'.nestRight tail') := by
  induction ht generalizing first first' with
  | nil => exact hf
  | @cons p p' _ _ hp _ ih =>
    obtain ⟨op, e⟩ := p
    obtain ⟨op', e'⟩ := p'
    obtain ⟨hop, he⟩ | ⟨hr, -⟩ := hp
    · obtain rfl : op = op' := hop
      exact hR.binary hf (ih he)
    · cases hr

/-- Chains of related operands have related trees. -/
theorem Congruence.nest (hR : Congruence R) (hf : R first first')
    (ht : List.Forall₂ (Linked R r) tail tail') : R (r.nest first tail) (r.nest first' tail') := by
  cases r with
  | power => exact hR.nestRight hf ht
  | _ => exact hR.nestLeft hf ht

end Nesting

/-- Phrases of one kind with related trees. -/
inductive Phrase.Related (R : Expr α → Expr α → Prop) : Phrase α → Phrase α → Prop
  | expression {e e'} (h : R e e') : Related R (.expression e) (.expression e')
  | chain {r first first' tail tail'} (hf : R first first')
      (ht : List.Forall₂ (Linked R r) tail tail') :
      Related R (.chain r first tail) (.chain r first' tail')
  | operand {r e e'} (h : R e e') : Related R (.operand r e) (.operand r e')
  | atom {e e'} (h : R e e') : Related R (.atom e) (.atom e')
  | arguments {es es'} (h : List.Forall₂ R es es') : Related R (.arguments es) (.arguments es')
  | moreArguments {es es'} (h : List.Forall₂ R es es') :
      Related R (.moreArguments es) (.moreArguments es')

section Patch

variable [Arithmetic α] [Numeral α]

/-- A chain goes on with an operator, which may be the sum that a negative number stands for. -/
inductive GoesOn (scope : Scope α) :
    Rank → List (Operator × Expr α) → List Token → List Token → Prop
  | more {r op first tail t us rest} (ht : t.isAnySymbol)
      (hop : r.operators.lookup t.trigger = some op)
      (hr : Reads scope (.chain r first tail) us rest) :
      GoesOn scope r ((op, first) :: tail) (t :: us) rest
  | glued {first tail t us rest} (ht : Grammar.isNegative t)
      (hr : Reads scope (.chain .sum first tail) (t :: us) rest) :
      GoesOn scope .sum ((.add, first) :: tail) (t :: us) rest

theorem GoesOn.reads {scope : Scope α} {r : Rank} {e : Expr α} {tail : List (Operator × Expr α)}
    {ts us rest : List Token} (hg : GoesOn scope r tail us rest)
    (h : Reads scope (.operand r e) ts us) : Reads scope (.chain r e tail) ts rest := by
  cases hg with
  | more ht hop hr => exact .more h ht hop hr
  | glued ht hr => exact .glued h ht hr

/-- What can be read at the place where two lists of tokens differ. -/
structure Patch (scope : Scope α) (R : Expr α → Expr α → Prop)
    (site : List Token → List Token → Prop) : Prop where
  /-- A number or a minus sign stands there. -/
  head {t ts ts'} (h : site (t :: ts) ts') : t.isNumber ∨ t.isSymbol "-"
  /-- An atom that is read there. -/
  atom {e ts ts' rest} (h : site ts ts') (he : Reads scope (.atom e) ts rest) :
    ∃ e' rest', Reads scope (.atom e') ts' rest' ∧ R e e' ∧ AllAlike rest rest'
  /-- A chain that goes on there. -/
  goesOn {r tail ts ts' rest} (h : site ts ts') (hg : GoesOn scope r tail ts rest) :
    ∃ tail' rest', GoesOn scope r tail' ts' rest' ∧ List.Forall₂ (Linked R r) tail tail' ∧
      AllAlike rest rest'

namespace Patched

variable {site : List Token → List Token → Prop} {t : Token} {ts ts' : List Token}

/-- A token that is read is alike in both lists, unless the place is there. -/
theorem cases_head (h : Patched site (t :: ts) ts') :
    site (t :: ts) ts' ∨ ∃ u us, ts' = u :: us ∧ t.Alike u ∧ Patched site ts us := by
  cases h with
  | after h =>
    cases h with
    | cons h hs => exact .inr ⟨_, _, rfl, h, .after hs⟩
  | here h => exact .inl h
  | before h hs => exact .inr ⟨_, _, rfl, h, hs⟩

end Patched

variable {scope : Scope α} {R : Expr α → Expr α → Prop} {site : List Token → List Token → Prop}

namespace Patch

variable {t : Token} {ts ts' : List Token}

/-- A symbol other than a minus sign is alike in both lists. -/
theorem of_isSymbol (hp : Patch scope R site) (h : Patched site (t :: ts) ts') {s : String}
    (ht : t.isSymbol s) (hs : s ≠ "-") :
    ∃ u us, ts' = u :: us ∧ u.isSymbol s ∧ Patched site ts us := by
  obtain hsite | ⟨u, us, rfl, halike, hus⟩ := h.cases_head
  · obtain hn | hm := hp.head hsite
    · simp [Token.isNumber_of_isSymbol ht] at hn
    · simp [Token.isSymbol_eq_false hm hs.symm] at ht
  · exact ⟨u, us, rfl, halike.isSymbol ht, hus⟩

/-- A name is alike in both lists. -/
theorem of_isIdentifier (hp : Patch scope R site) (h : Patched site (t :: ts) ts')
    (ht : t.isIdentifier) : ∃ u us, ts' = u :: us ∧ t.Alike u ∧ Patched site ts us := by
  refine h.cases_head.resolve_left fun hsite => ?_
  obtain hn | hm := hp.head hsite
  · simp [Token.isIdentifier_of_isNumber hn] at ht
  · simp [Token.isIdentifier_of_isSymbol hm] at ht

/-- The token after a plus sign is alike in both lists. -/
theorem of_plus {p : Token} {us : List Token} (hp : Patch scope R site)
    (h : Patched site (p :: t :: ts) us) (hplus : p.isSymbol "+") :
    ∃ p' t' us', us = p' :: t' :: us' ∧ p'.isSymbol "+" ∧ t.Alike t' ∧
      Patched site (t :: ts) (t' :: us') := by
  cases h with
  | after h =>
    cases h with
    | cons h hs =>
      cases hs with
      | cons ht hs => exact ⟨_, _, _, rfl, h.isSymbol hplus, ht, .after (.cons ht hs)⟩
  | here h =>
    obtain hn | hm := hp.head h
    · simp [Token.isNumber_of_isSymbol hplus] at hn
    · have hp : p.isSymbol "+" = false := Token.isSymbol_eq_false hm (by decide)
      simp [hp] at hplus
  | before h hs halike =>
    obtain ⟨t', us', rfl, ht⟩ := halike hplus t ts rfl
    exact ⟨_, t', us', rfl, h.isSymbol hplus, ht, hs⟩

end Patch

/-- What is read off the one list can be read off the other, with a related tree. -/
theorem Reads.patched (hR : Congruence R) (hp : Patch scope R site) {ph : Phrase α}
    {ts rest : List Token} (h : Reads scope ph ts rest) {ts' : List Token}
    (hts : Patched site ts ts') :
    ∃ ph' rest', Reads scope ph' ts' rest' ∧ ph.Related R ph' ∧ Patched site rest rest' := by
  -- An atom that begins at the place, or a chain that goes on there, is left to the patch.
  have atSite {e : Expr α} {ts ts' rest : List Token} (h : site ts ts')
      (he : Reads scope (.atom e) ts rest) :
      ∃ ph' rest', Reads scope ph' ts' rest' ∧ (Phrase.atom e).Related R ph' ∧
        Patched site rest rest' := by
    obtain ⟨e', rest', hread, he, hrest⟩ := hp.atom h he
    exact ⟨_, rest', hread, .atom he, .after hrest⟩
  have goingOn {r : Rank} {e e' : Expr α} {tail : List (Operator × Expr α)}
      {ts' us us' rest : List Token} (h : site us us') (he : R e e')
      (hread : Reads scope (.operand r e') ts' us') (hg : GoesOn scope r tail us rest) :
      ∃ ph' rest', Reads scope ph' ts' rest' ∧ (Phrase.chain r e tail).Related R ph' ∧
        Patched site rest rest' := by
    obtain ⟨tail', rest', hg, ht, hrest⟩ := hp.goesOn h hg
    exact ⟨_, rest', hg.reads hread, .chain he ht, .after hrest⟩
  induction h generalizing ts' with
  | unconditional _ ih =>
    obtain ⟨_, rest', hread, hrel, hrest⟩ := ih hts
    cases hrel with
    | chain hf ht => exact ⟨_, rest', .unconditional hread, .expression (hR.nest hf ht), hrest⟩
  | conditional _ hq _ hc _ ih iha ihb =>
    obtain ⟨_, _, hread, hrel, hus⟩ := ih hts
    obtain ⟨q, us, rfl, hq, hus⟩ := hp.of_isSymbol hus hq (by decide)
    obtain ⟨_, _, hreadA, hrelA, hvs⟩ := iha hus
    obtain ⟨c, vs, rfl, hc, hvs⟩ := hp.of_isSymbol hvs hc (by decide)
    obtain ⟨_, rest', hreadB, hrelB, hrest⟩ := ihb hvs
    cases hrel with
    | chain hf ht =>
      cases hrelA with
      | expression ha =>
        cases hrelB with
        | expression hb =>
          have hes := List.Forall₂.cons (hR.nest hf ht) (.cons ha (.cons hb .nil))
          exact ⟨_, rest', .conditional hread hq hreadA hc hreadB, .expression (hR.call hes), hrest⟩
  | single _ ih =>
    obtain ⟨_, rest', hread, hrel, hrest⟩ := ih hts
    cases hrel with
    | operand he => exact ⟨_, rest', .single hread, .chain he .nil, hrest⟩
  | more _ ht hop hr ih ihr =>
    obtain ⟨_, _, hread, hrel, hus⟩ := ih hts
    cases hrel with
    | operand he =>
      obtain hsite | ⟨t, us, rfl, halike, hus⟩ := hus.cases_head
      · exact goingOn hsite he hread (.more ht hop hr)
      · obtain ⟨_, rest', hreadR, hrelR, hrest⟩ := ihr hus
        cases hrelR with
        | chain hf htail =>
          refine ⟨_, rest', .more hread (halike.isAnySymbol ht) (halike.trigger ▸ hop) hreadR,
            .chain he (.cons (.inl ⟨rfl, hf⟩) htail), hrest⟩
  | glued _ ht hr ih ihr =>
    obtain ⟨_, _, hread, hrel, hus⟩ := ih hts
    cases hrel with
    | operand he =>
      obtain hsite | ⟨t, us, rfl, halike, -⟩ := hus.cases_head
      · exact goingOn hsite he hread (.glued ht hr)
      · obtain ⟨_, rest', hreadR, hrelR, hrest⟩ := ihr hus
        cases hrelR with
        | chain hf htail =>
          exact ⟨_, rest', .glued hread (halike.isNegative ht) hreadR,
            .chain he (.cons (.inl ⟨rfl, hf⟩) htail), hrest⟩
  | inner hr _ ih =>
    obtain ⟨_, rest', hread, hrel, hrest⟩ := ih hts
    cases hrel with
    | chain hf ht => exact ⟨_, rest', .inner hr hread, .operand (hR.nest hf ht), hrest⟩
  | innermost _ ih =>
    obtain ⟨_, rest', hread, hrel, hrest⟩ := ih hts
    cases hrel with
    | atom he => exact ⟨_, rest', .innermost hread, .operand he, hrest⟩
  | negation ht h ih =>
    obtain hsite | ⟨t, us, rfl, halike, hus⟩ := hts.cases_head
    · exact atSite hsite (.negation ht h)
    · obtain ⟨_, rest', hread, hrel, hrest⟩ := ih hus
      cases hrel with
      | atom he =>
        exact ⟨_, rest', .negation (halike.isSymbol ht) hread,
          .atom (hR.binary (hR.refl _) he), hrest⟩
  | plus hplus ht _ ih =>
    obtain ⟨p, t, us, rfl, hplus, halike, hus⟩ := hp.of_plus hts hplus
    obtain ⟨_, rest', hread, hrel, hrest⟩ := ih hus
    cases hrel with
    | atom he =>
      exact ⟨_, rest', .plus hplus (ht.imp halike.isSymbol halike.isNumber) hread, .atom he, hrest⟩
  | brackets ht _ hu ih =>
    obtain ⟨t, us, rfl, ht, hus⟩ := hp.of_isSymbol hts ht (by decide)
    obtain ⟨_, _, hread, hrel, hrest⟩ := ih hus
    obtain ⟨u, rest', rfl, hu, hrest⟩ := hp.of_isSymbol hrest hu (by decide)
    cases hrel with
    | expression he => exact ⟨_, rest', .brackets ht hread hu, .atom (hR.sealTop he), hrest⟩
  | bars ht _ hu ih =>
    obtain ⟨t, us, rfl, ht, hus⟩ := hp.of_isSymbol hts ht (by decide)
    obtain ⟨_, _, hread, hrel, hrest⟩ := ih hus
    obtain ⟨u, rest', rfl, hu, hrest⟩ := hp.of_isSymbol hrest hu (by decide)
    cases hrel with
    | expression he => exact ⟨_, rest', .bars ht hread hu, .atom (hR.call (.cons he .nil)), hrest⟩
  | call ht hu hf _ hv ih =>
    obtain ⟨t, us, rfl, halike, hus⟩ := hp.of_isIdentifier hts ht
    obtain ⟨u, us, rfl, hu, hus⟩ := hp.of_isSymbol hus hu (by decide)
    obtain ⟨_, _, hread, hrel, hrest⟩ := ih hus
    obtain ⟨v, rest', rfl, hv, hrest⟩ := hp.of_isSymbol hrest hv (by decide)
    cases hrel with
    | arguments hes =>
      exact ⟨_, rest', .call (halike.isIdentifier ht) hu (halike.contents ▸ hf) hread hv,
        .atom (hR.call hes), hrest⟩
  | named ht hv =>
    obtain ⟨t, rest', rfl, halike, hrest⟩ := hp.of_isIdentifier hts ht
    exact ⟨_, rest', .named (halike.isIdentifier ht) (halike.contents ▸ hv),
      .atom (hR.refl _), hrest⟩
  | number ht hd =>
    obtain hsite | ⟨t, rest', rfl, halike, hrest⟩ := hts.cases_head
    · exact atSite hsite (.number ht hd)
    · exact ⟨_, rest', .number (halike.isNumber ht) (halike.contents ▸ hd),
        .atom (hR.refl _), hrest⟩
  | scaled ht hd hq hk =>
    obtain hsite | ⟨t, us, rfl, halike, hus⟩ := hts.cases_head
    · exact atSite hsite (.scaled ht hd hq hk)
    · obtain ⟨q, rest', rfl, halikeQ, hrest⟩ := hp.of_isIdentifier hus hq
      exact ⟨_, rest', .scaled (halike.isNumber ht) (halike.contents ▸ hd)
        (halikeQ.isIdentifier hq) (halikeQ.contents ▸ hk), .atom (hR.refl _), hrest⟩
  | noArguments => exact ⟨_, ts', .noArguments, .arguments .nil, hts⟩
  | someArguments _ _ ih ihs =>
    obtain ⟨_, _, hread, hrel, hus⟩ := ih hts
    obtain ⟨_, rest', hreadS, hrelS, hrest⟩ := ihs hus
    cases hrel with
    | expression he =>
      cases hrelS with
      | moreArguments hes =>
        exact ⟨_, rest', .someArguments hread hreadS, .arguments (.cons he hes), hrest⟩
  | noMore => exact ⟨_, ts', .noMore, .moreArguments .nil, hts⟩
  | oneMore ht _ _ ih ihs =>
    obtain ⟨t, us, rfl, ht, hus⟩ := hp.of_isSymbol hts ht (by decide)
    obtain ⟨_, _, hread, hrel, hus⟩ := ih hus
    obtain ⟨_, rest', hreadS, hrelS, hrest⟩ := ihs hus
    cases hrel with
    | expression he =>
      cases hrelS with
      | moreArguments hes =>
        exact ⟨_, rest', .oneMore ht hread hreadS, .moreArguments (.cons he hes), hrest⟩

/-! ### Without a place where they differ -/

omit [Arithmetic α] [Numeral α] in
theorem Phrase.eq_of_related {ph ph' : Phrase α} (h : ph.Related Eq ph') : ph = ph' := by
  have hlist {es es' : List (Expr α)} (h : List.Forall₂ Eq es es') : es = es' := by
    rwa [List.forall₂_eq_eq_eq] at h
  cases h with
  | chain hf ht =>
    have htail := ht.imp (S := Eq) fun p p' hp => by
      obtain ⟨op, e⟩ := p
      obtain ⟨op', e'⟩ := p'
      obtain ⟨hop, he⟩ | ⟨-, hp⟩ := hp
      · exact Prod.ext hop he
      · obtain ⟨hop, -, he, -⟩ := Expr.binary.inj (hp e e rfl)
        exact Prod.ext hop he
    rw [List.forall₂_eq_eq_eq] at htail
    rw [hf, htail]
  | expression h => rw [h]
  | operand h => rw [h]
  | atom h => rw [h]
  | arguments h => rw [hlist h]
  | moreArguments h => rw [hlist h]

theorem Patched.allAlike {ts ts' : List Token} (h : Patched (fun _ _ => False) ts ts') :
    AllAlike ts ts' := by
  induction h with
  | after h => exact h
  | here h => cases h
  | before h _ _ ih => exact .cons h ih

/-- Tokens that are alike are read as the same tree. -/
theorem Reads.alike {ph : Phrase α} {ts ts' rest : List Token} (h : Reads scope ph ts rest)
    (hts : AllAlike ts ts') : ∃ rest', Reads scope ph ts' rest' ∧ AllAlike rest rest' := by
  have hp : Patch scope Eq fun _ _ => False := ⟨fun h => h.elim, fun h => h.elim, fun h => h.elim⟩
  obtain ⟨_, rest', hread, hrel, hrest⟩ := h.patched congruence_eq hp (.after hts)
  rw [← Phrase.eq_of_related hrel] at hread
  exact ⟨rest', hread, hrest.allAlike⟩

end Patch

end Reckon
