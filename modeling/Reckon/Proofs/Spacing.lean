import Reckon.Proofs.Agreement
import Reckon.Proofs.Patching
import Reckon.Proofs.Precedence

/-!
# Minus signs with and without a blank

The lexer glues a minus sign to a digit that follows it, so that `x-2` is the operand `x` and the
number `-2`, while `x - 2` is an operand, an operator and a number. The grammar adds the negative
number in the one case and subtracts the number in the other. In exact arithmetic this is the same,
also when the number is the first operand of a product, a quotient or a remainder. It is not the
same when the number is the base of a power.

## Main definitions

* `Token.Glues` — a number with a minus sign, and the same as two tokens.
* `FreeOfPower` — no operator of a power follows a number and its quantifier.
* `Separates` — a number with a minus sign in one list is two tokens in the other.

## Main statements

* `Replaces.sum` — the number at the front of a sum is replaced.
* `Reads.separated`, `Reads.joined` — readings carry over between the two spellings.
-/

namespace Reckon

/-- The number `n` is the minus sign `m` and the number `n'` in one. -/
structure Token.Glues (n m n' : Token) : Prop where
  isNumber : n.isNumber
  isSymbol : m.isSymbol "-"
  isNumber' : n'.isNumber
  contents : n.contents.toList = '-' :: n'.contents.toList
  unsigned : ∀ c ∈ n'.contents.toList.head?, c ≠ '-' ∧ c ≠ '+'

/-- The tokens after a number do not raise it to a power, be it with a quantifier or without. -/
def FreeOfPower (us : List Token) : Prop :=
  (∀ u ∈ us.head?, ¬ u.Continues .power) ∧
    ∀ q ∈ us.head?, q.isIdentifier → (Quantifier.named? q.contents).isSome →
      ∀ v ∈ us.tail.head?, ¬ v.Continues .power

instance (us : List Token) : Decidable (FreeOfPower us) := inferInstanceAs (Decidable (_ ∧ _))

theorem Token.Glues.isNegative {n m n' : Token} (h : n.Glues m n') : Grammar.isNegative n := by
  simp [Grammar.isNegative, h.isNumber, h.contents]

theorem Token.Alike.continues {t t' : Token} (h : t.Alike t') {r : Rank} (ht : t.Continues r) :
    t'.Continues r :=
  ht.imp (fun ht => ⟨h.isAnySymbol ht.1, h.trigger ▸ ht.2⟩) fun ht => ⟨ht.1, h.isNegative ht.2⟩

theorem FreeOfPower.of_alike {us us' : List Token} (h : FreeOfPower us) (hus : AllAlike us us') :
    FreeOfPower us' := by
  cases hus with
  | nil => exact h
  | cons hq hvs =>
    refine ⟨?_, ?_⟩
    · rintro u ⟨⟩ hu
      exact h.1 _ rfl (hq.symm.continues hu)
    · rintro q ⟨⟩ hid hsome v hv hcont
      cases hvs with
      | nil => cases hv
      | cons hw _ =>
        obtain rfl := Option.some.inj hv
        rw [← hq.contents] at hsome
        exact h.2 _ rfl (hq.symm.isIdentifier hid) hsome _ rfl (hw.symm.continues hcont)

/-- A number with a minus sign at the front of the first list is two tokens in the second. -/
inductive Separates : List Token → List Token → Prop
  | intro {n m n' us us'} (hn : n.Glues m n') (hus : AllAlike us us') (hpower : FreeOfPower us) :
      Separates (n :: us) (m :: n' :: us')

/-- Numerals with and without a minus sign. -/
theorem Decimal.read?_minus {cs : List Char} (h : ∀ c ∈ cs.head?, c ≠ '-' ∧ c ≠ '+') :
    (read? cs).map (fun d => (⟨true, d.mantissa, d.exponent⟩ : Decimal)) = read? ('-' :: cs) ∧
      ∀ d ∈ read? cs, d.negative = false := by
  have hsign : readSign cs = (false, cs) := by
    unfold readSign
    split
    · exact absurd rfl (h _ rfl).1
    · exact absurd rfl (h _ rfl).2
    · rfl
  have hminus : readSign ('-' :: cs) = (true, cs) := rfl
  simp only [read?, hsign, hminus]
  split
  · exact ⟨rfl, by simp⟩
  · cases hexp : readExponent? (readFraction (cs.dropWhile Char.isDigit)).2 <;> simp

section Numbers

variable {α : Type} [Arithmetic α] [Numeral α] {scope : Scope α}
variable {n m n' : Token} {us us' rest : List Token}

/-- A number with the quantifier after it, if there is one. -/
inductive Scales (x : α) : α → List Token → List Token → Prop
  | bare {ts} : Scales x x ts ts
  | quantifier {q k ts} (hq : q.isIdentifier) (hk : Quantifier.named? q.contents = some k) :
      Scales x (Numeral.scale k x) (q :: ts) ts

namespace Scales

variable {x y : α}

theorem reads {d : Decimal} (hn : n.isNumber) (hd : Decimal.read? n.contents.toList = some d)
    (h : Scales (Numeral.ofDecimal d) y us rest) :
    Reads scope (.atom (.constant y)) (n :: us) rest := by
  cases h with
  | bare => exact .number hn hd
  | quantifier hq hk => exact .scaled hn hd hq hk

omit [Arithmetic α] in
theorem alike (h : Scales x y us rest) (hus : AllAlike us us') :
    ∃ rest', Scales x y us' rest' ∧ AllAlike rest rest' := by
  cases h with
  | bare => exact ⟨us', .bare, hus⟩
  | quantifier hq hk =>
    cases hus with
    | cons h hus => exact ⟨_, .quantifier (h.isIdentifier hq) (h.contents ▸ hk), hus⟩

omit [Arithmetic α] in
theorem not_continues (h : Scales x y us rest) (hus : FreeOfPower us) :
    ∀ u ∈ rest.head?, ¬ u.Continues .power := by
  cases h with
  | bare => exact hus.1
  | quantifier hq hk => exact hus.2 _ rfl hq (by rw [hk]; rfl)

variable [SignedNumeral α]

theorem of_opposite (h : Scales (opposite x) y us rest) :
    ∃ y', y = opposite y' ∧ Scales x y' us rest := by
  cases h with
  | bare => exact ⟨x, rfl, .bare⟩
  | quantifier hq hk => exact ⟨_, SignedNumeral.scale_opposite _ x, .quantifier hq hk⟩

theorem opposite (h : Scales x y us rest) : Scales (opposite x) (opposite y) us rest := by
  cases h with
  | bare => exact .bare
  | quantifier hq hk =>
    rw [← SignedNumeral.scale_opposite]
    exact .quantifier hq hk

end Scales

/-- An atom that begins with a number is that number with its quantifier. -/
theorem Reads.of_number {e : Expr α} (hn : n.isNumber) (h : Reads scope (.atom e) (n :: us) rest) :
    ∃ d y, Decimal.read? n.contents.toList = some d ∧
      Scales (Numeral.ofDecimal d) y us rest ∧ e = .constant y := by
  have hsym := Token.isSymbol_of_isNumber hn
  have hid := Token.isIdentifier_of_isNumber hn
  cases h with
  | negation ht => simp [hsym] at ht
  | plus hp => simp [hsym] at hp
  | brackets ht => simp [hsym] at ht
  | bars ht => simp [hsym] at ht
  | call ht => simp [hid] at ht
  | named ht => simp [hid] at ht
  | number _ hd => exact ⟨_, _, hd, .bare, rfl⟩
  | scaled _ hd hq hk => exact ⟨_, _, hd, .quantifier hq hk, rfl⟩

namespace Token.Glues

variable [SignedNumeral α]

/-- The number with the minus sign is the opposite of the number without it. -/
theorem reads_unsigned {e : Expr α} (hg : n.Glues m n') (hus : AllAlike us us')
    (h : Reads scope (.atom e) (n :: us) rest) :
    ∃ y rest', e = .constant (opposite y) ∧ Reads scope (.atom (.constant y)) (n' :: us') rest' ∧
      AllAlike rest rest' ∧ (FreeOfPower us → ∀ u ∈ rest.head?, ¬ u.Continues .power) := by
  obtain ⟨hread, hpositive⟩ := Decimal.read?_minus hg.unsigned
  obtain ⟨d, y, hd, hscales, rfl⟩ := Reads.of_number hg.isNumber h
  rw [hg.contents, ← hread] at hd
  obtain ⟨⟨sign, mantissa, exponent⟩, hd', rfl⟩ := Option.map_eq_some_iff.1 hd
  obtain rfl : sign = false := hpositive _ hd'
  rw [SignedNumeral.ofDecimal_negative] at hscales
  have hfree := hscales.not_continues
  obtain ⟨y, rfl, hunsigned⟩ := hscales.of_opposite
  obtain ⟨rest', hunsigned, hrest⟩ := hunsigned.alike hus
  exact ⟨y, rest', rfl, hunsigned.reads hg.isNumber' hd', hrest, hfree⟩

theorem reads_signed {e : Expr α} (hg : n.Glues m n') (hus : AllAlike us us')
    (h : Reads scope (.atom e) (n' :: us) rest) :
    ∃ y rest', e = .constant y ∧ Reads scope (.atom (.constant (opposite y))) (n :: us') rest' ∧
      AllAlike rest rest' ∧ (FreeOfPower us → ∀ u ∈ rest.head?, ¬ u.Continues .power) := by
  obtain ⟨hread, hpositive⟩ := Decimal.read?_minus hg.unsigned
  obtain ⟨⟨sign, mantissa, exponent⟩, y, hd, hscales, rfl⟩ := Reads.of_number hg.isNumber' h
  obtain rfl : sign = false := hpositive _ hd
  rw [hd, ← hg.contents] at hread
  have hfree := hscales.not_continues
  obtain ⟨rest', hscales, hrest⟩ := hscales.opposite.alike hus
  rw [← SignedNumeral.ofDecimal_negative] at hscales
  exact ⟨y, rest', rfl, hscales.reads hg.isNumber hread.symm, hrest, hfree⟩

end Token.Glues

/-! ### The first number of a sum -/

section ReplaceFirst

variable {a b : Token} {O : Expr α → Expr α → Prop}

/-- The operands of rank `r` that begin with the token `a` are read with the token `b` as well, and
have trees that are related by `O` then. -/
def Replaces (scope : Scope α) (O : Expr α → Expr α → Prop) (a b : Token) (us us' : List Token)
    (r : Rank) : Prop :=
  ∀ e rest, Reads scope (.operand r e) (a :: us) rest →
    ∃ e' rest', Reads scope (.operand r e') (b :: us') rest' ∧ O e e' ∧ AllAlike rest rest'

/-- If the operands of a chain can be replaced, the chain can be replaced: what follows its first
operand is alike. -/
theorem Replaces.chain {r : Rank} {first : Expr α} {tail : List (Operator × Expr α)}
    (hr : Replaces scope O a b us us' r) (h : Reads scope (.chain r first tail) (a :: us) rest) :
    ∃ first' rest', Reads scope (.chain r first' tail) (b :: us') rest' ∧ O first first' ∧
      AllAlike rest rest' := by
  cases h with
  | single h =>
    obtain ⟨e', rest', hread, ho, hrest⟩ := hr _ _ h
    exact ⟨e', rest', .single hread, ho, hrest⟩
  | more h ht hop htail =>
    obtain ⟨e', _, hread, ho, hvs⟩ := hr _ _ h
    cases hvs with
    | cons halike hvs =>
      obtain ⟨rest', htail, hrest⟩ := htail.alike hvs
      exact ⟨e', rest', .more hread (halike.isAnySymbol ht) (halike.trigger ▸ hop) htail, ho, hrest⟩
  | glued h ht htail =>
    obtain ⟨e', vs, hread, ho, hvs⟩ := hr _ _ h
    obtain ⟨rest', htail, hrest⟩ := htail.alike hvs
    cases hvs with
    | cons halike hvs => exact ⟨e', rest', .glued hread (halike.isNegative ht) htail, ho, hrest⟩

/-- The operand of a product that begins with a number is that number, unless it is the base of a
power. -/
theorem Replaces.product
    (hatom : ∀ e rest, Reads scope (.atom e) (a :: us) rest →
      ∃ e' rest', Reads scope (.atom e') (b :: us') rest' ∧ O e e' ∧ AllAlike rest rest' ∧
        ∀ u ∈ rest.head?, ¬ u.Continues .power) :
    Replaces scope O a b us us' .product := by
  intro e rest h
  have hpower {e : Expr α} {rest : List Token}
      (h : Reads scope (.operand .power e) (a :: us) rest) :
      ∃ e' rest', Reads scope (.operand .power e') (b :: us') rest' ∧ O e e' ∧
        AllAlike rest rest' ∧ ∀ u ∈ rest.head?, ¬ u.Continues .power := by
    cases h with
    | inner hr => cases hr
    | innermost h =>
      obtain ⟨e', rest', hread, ho, hrest⟩ := hatom _ _ h
      exact ⟨e', rest', .innermost hread, ho, hrest⟩
  cases h with
  | inner hr h =>
    obtain rfl := Option.some.inj hr
    cases h with
    | single h =>
      obtain ⟨e', rest', hread, ho, hrest, -⟩ := hpower h
      refine ⟨_, rest', .inner rfl (.single hread), ?_, hrest⟩
      rwa [Rank.nest_nil, Rank.nest_nil]
    | more h ht hop =>
      -- The number would be the base of a power.
      obtain ⟨-, -, -, -, -, hfree⟩ := hpower h
      exact absurd (.inl ⟨ht, by simp [hop]⟩) (hfree _ rfl)

omit [Arithmetic α] [Numeral α] in
theorem nestLeft_of_first {first first' : Expr α} {tail : List (Operator × Expr α)}
    (hO : ∀ op e e' r, op.rank = .product → O e e' → O (.join op e r) (.join op e' r))
    (htail : ∀ p ∈ tail, p.1.rank = .product) (ho : O first first') :
    O (first.nestLeft tail) (first'.nestLeft tail) := by
  induction tail generalizing first first' with
  | nil => exact ho
  | cons p tail ih =>
    exact ih (fun q hq => htail q (by simp [hq])) (hO _ _ _ _ (htail p (by simp)) ho)

/-- The first operand of a sum, if that is a product that begins with a number. -/
theorem Replaces.sum (hproduct : Replaces scope O a b us us' .product)
    (hO : ∀ op e e' r, op.rank = .product → O e e' → O (.join op e r) (.join op e' r)) :
    Replaces scope O a b us us' .sum := by
  intro e rest h
  cases h with
  | inner hr h =>
    obtain rfl := Option.some.inj hr
    obtain ⟨-, htail⟩ := h.formed
    obtain ⟨first', rest', hread, ho, hrest⟩ := hproduct.chain h
    exact ⟨_, rest', .inner rfl hread, nestLeft_of_first hO htail ho, hrest⟩

end ReplaceFirst

/-! ### The two spellings -/

variable [SignedNumeral α]

/-- A sum that begins with a number with a minus sign is also read without the minus sign, and its
first operand is the opposite then. -/
theorem Token.Glues.reads_sum (hg : n.Glues m n') (hus : AllAlike us us') (hfree : FreeOfPower us)
    (s : Store α) {first : Expr α} {tail : List (Operator × Expr α)}
    (h : Reads scope (.chain .sum first tail) (n :: us) rest) :
    ∃ first' rest', Reads scope (.chain .sum first' tail) (n' :: us') rest' ∧
      first.Corresponds s opposite first' ∧ AllAlike rest rest' := by
  have hproduct : Replaces scope (Expr.Corresponds s opposite) n n' us us' .product := by
    refine Replaces.product fun e rest h => ?_
    obtain ⟨y, rest', rfl, hread, hrest, hcont⟩ := hg.reads_unsigned hus h
    exact ⟨_, rest', hread, Expr.corresponds_constant rfl, hrest, hcont hfree⟩
  have hsum := hproduct.sum fun _ _ _ _ hop ho =>
    ho.binary (Expr.Matches.refl _) fun x y => SignedArithmetic.apply_opposite hop x y
  exact hsum.chain h

/-- A sum that begins with a number is also read with a minus sign in front of the number. -/
theorem Token.Glues.reads_sum_signed (hg : n.Glues m n') (hus : AllAlike us us')
    (hfree : FreeOfPower us) {first : Expr α} {tail : List (Operator × Expr α)}
    (h : Reads scope (.chain .sum first tail) (n' :: us) rest) :
    ∃ first' rest', Reads scope (.chain .sum first' tail) (n :: us') rest' ∧
      AllAlike rest rest' := by
  have hproduct : Replaces scope (fun _ _ => True) n' n us us' .product := by
    refine Replaces.product fun e rest h => ?_
    obtain ⟨y, rest', rfl, hread, hrest, hcont⟩ := hg.reads_signed hus h
    exact ⟨_, rest', hread, trivial, hrest, hcont hfree⟩
  have hsum := hproduct.sum fun _ _ _ _ _ _ => trivial
  obtain ⟨first', rest', hread, -, hrest⟩ := hsum.chain h
  exact ⟨first', rest', hread, hrest⟩

theorem Expr.congruence_matches (s : Store α) : Congruence (Expr.Matches s) where
  refl := Matches.refl
  sealTop h := h.sealTop
  binary hl hr := hl.binary hr
  call hes := .call hes

theorem Separates.head {t : Token} {ts ts' : List Token} (h : Separates (t :: ts) ts') :
    t.isNumber := by
  cases h with
  | intro hn => exact hn.isNumber

omit [Numeral α] [SignedNumeral α] in
/-- A negated number is the opposite of the number. -/
theorem Expr.matches_opposite (s : Store α) (y : α) :
    Expr.Matches s (.constant (opposite y))
      (.binary .subtract (.constant Arithmetic.zero) (.constant y) true) := by
  unfold Matches Corresponds
  rw [simplify, simplify, simplify, simplify, pure_bind, pure_bind]
  exact .ok (.refl _)

omit [SignedNumeral α] in
/-- A sum goes on with the minus sign as it does with the number. -/
theorem Token.Glues.goesOn (hg : n.Glues m n') {first : Expr α} {tail : List (Operator × Expr α)}
    {ts : List Token} (h : Reads scope (.chain .sum first tail) ts rest) :
    GoesOn scope .sum ((.subtract, first) :: tail) (m :: ts) rest := by
  obtain ⟨hk, ht⟩ := Token.isSymbol_iff.1 hg.isSymbol
  exact .more (by simp [Token.isAnySymbol, hk]) (by rw [ht]; rfl) h

/-- Where a number with a minus sign is separated, the trees are interchangeable. -/
theorem patch_separates (scope : Scope α) (s : Store α) :
    Patch scope (Expr.Matches s) Separates where
  head h := .inl h.head
  atom h he := by
    cases h with
    | intro hn hus hfree =>
      obtain ⟨y, rest', rfl, hread, hrest, -⟩ := hn.reads_unsigned hus he
      exact ⟨_, rest', .negation hn.isSymbol hread, Expr.matches_opposite s y, hrest⟩
  goesOn h hg := by
    cases h with
    | intro hn hus hfree =>
      cases hg with
      | more ht => simp [Token.isAnySymbol_of_isNumber hn.isNumber] at ht
      | @glued first tail _ _ _ ht hr =>
        obtain ⟨first', rest', hread, ho, hrest⟩ := hn.reads_sum hus hfree s hr
        have hlinked : Linked (Expr.Matches s) .sum (.add, first) (.subtract, first') :=
          .inr ⟨rfl, fun e e' he =>
            Expr.Corresponds.binary he ho fun x y => (SignedArithmetic.apply_subtract x y).symm⟩
        exact ⟨_, rest', hn.goesOn hread,
          .cons hlinked ((Expr.congruence_matches s).linked_refl tail), hrest⟩

omit [SignedNumeral α] in
theorem Reads.of_minus {e : Expr α} {t : Token} {ts : List Token} (ht : t.isSymbol "-")
    (h : Reads scope (.atom e) (t :: ts) rest) : ∃ e', Reads scope (.atom e') ts rest := by
  have hid := Token.isIdentifier_of_isSymbol ht
  have hn := Token.isNumber_of_isSymbol ht
  have hsym {s : String} (hs : "-" ≠ s) : t.isSymbol s = false := Token.isSymbol_eq_false ht hs
  cases h with
  | negation _ h => exact ⟨_, h⟩
  | plus hp => simp [hsym] at hp
  | brackets ht => simp [hsym] at ht
  | bars ht => simp [hsym] at ht
  | call ht => simp [hid] at ht
  | named ht => simp [hid] at ht
  | number ht => simp [hn] at ht
  | scaled ht => simp [hn] at ht

theorem Rank.of_lookup_minus {r : Rank} {op : Operator} (h : r.operators.lookup "-" = some op) :
    r = .sum ∧ op = .subtract := by
  have hnone : ∀ r : Rank, r ≠ .sum → r.operators.lookup "-" = none := by
    intro r hr
    cases r <;> first | exact absurd rfl hr | rfl
  by_cases hr : r = .sum
  · subst hr
    exact ⟨rfl, (Option.some.inj h).symm⟩
  · simp [hnone r hr] at h

/-- Where a minus sign and a number are joined, what is read can still be read. -/
theorem patch_joins (scope : Scope α) :
    Patch scope (fun _ _ => True) fun ts ts' => Separates ts' ts where
  head h := by
    cases h with
    | intro hn => exact .inr hn.isSymbol
  atom h he := by
    cases h with
    | intro hn hus hfree =>
      obtain ⟨e', he⟩ := he.of_minus hn.isSymbol
      obtain ⟨y, rest', rfl, hread, hrest, -⟩ := hn.reads_signed hus.symm he
      exact ⟨_, rest', hread, trivial, hrest⟩
  goesOn h hg := by
    cases h with
    | intro hn hus hfree =>
      obtain ⟨hkind, htrigger⟩ := Token.isSymbol_iff.1 hn.isSymbol
      cases hg with
      | more ht hop hr =>
        rw [htrigger] at hop
        obtain ⟨rfl, rfl⟩ := Rank.of_lookup_minus hop
        obtain ⟨first', rest', hread, hrest⟩ := hn.reads_sum_signed hus.symm (hfree.of_alike hus) hr
        exact ⟨_, rest', .glued hn.isNegative hread, .cons (.inr ⟨rfl, fun _ _ _ => trivial⟩)
          (List.forall₂_same.2 fun p _ => .inl ⟨rfl, trivial⟩), hrest⟩
      | glued ht =>
        have hnumber := Token.isNumber_of_isNegative ht
        simp [Token.isNumber_of_isSymbol hn.isSymbol] at hnumber

section Spellings

variable {ts ts' : List Token} (hus : ∀ u ∈ us.getLast?, u.isSymbol "+" = false)
include hus

/-- What is read where a number has a minus sign is also read where this is a token of its own, and
the trees are interchangeable. -/
theorem Reads.separated (s : Store α) {e : Expr α}
    (h : Reads scope (.expression e) (us ++ ts) []) (hs : Separates ts ts') :
    ∃ e', Reads scope (.expression e') (us ++ ts') [] ∧ e.Matches s e' := by
  obtain ⟨_, rest', hread, hrel, hrest⟩ :=
    h.patched (Expr.congruence_matches s) (patch_separates scope s) (.append hs hus)
  cases hrel with
  | expression he =>
    cases hrest with
    | after hrest =>
      cases hrest
      exact ⟨_, hread, he⟩
    | here hrest => cases hrest

/-- What is read where a minus sign is a token of its own is also read where the number after it has
taken it in, and the trees are interchangeable. -/
theorem Reads.joined (s : Store α) {e' : Expr α}
    (h : Reads scope (.expression e') (us ++ ts') []) (hs : Separates ts ts') :
    ∃ e, Reads scope (.expression e) (us ++ ts) [] ∧ e.Matches s e' := by
  obtain ⟨_, rest, hread, hrel, hrest⟩ :=
    h.patched congruence_true (patch_joins scope) (.append hs hus)
  cases hrel with
  | expression =>
    cases hrest with
    | after hrest =>
      cases hrest
      -- Readings are unique, so that taking the number apart again gives the tree we began with.
      obtain ⟨e'', hread', he⟩ := hread.separated hus s hs
      rw [hread'.unique h] at he
      exact ⟨_, hread, he⟩
    | here hrest => cases hrest

end Spellings

end Numbers

end Reckon
