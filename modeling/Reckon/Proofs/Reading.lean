import Reckon.Grammar
import Mathlib.Data.List.Induction

/-!
# The conventional reading of formulas

What tokens mean, said without the way in which they are parsed. A chain of operators of one rank is
a list of operands with operators between them, and its tree is nested to the left, or to the right
if the operators are powers. An operand of a chain is a chain of the next tighter rank, or an atom.

`Reads scope phrase ts rest` says that `phrase` can be read off the front of `ts` and leaves `rest`.
The rules do not look at what is left, so that a phrase may be read off the front of another one.

## Main definitions

* `Rank.nest` — the tree of a chain.
* `Phrase` — what can be read: expressions, chains, operands, atoms and arguments.
* `Reads` — the rules.

## Main statements

* `Grammar.combine_nest` — grafting an operand onto the tree of a chain puts it in front of the chain.
* `Reads.exists_taken` — a reading depends on nothing but the tokens that it takes.
-/

namespace Reckon

variable {α : Type}

/-- The tree of a chain of powers. -/
def Expr.nestRight (first : Expr α) : List (Operator × Expr α) → Expr α
  | [] => first
  | (op, next) :: tail => .join op first (nestRight next tail)

/-- The tree of a chain of all other operators. -/
def Expr.nestLeft (first : Expr α) (tail : List (Operator × Expr α)) : Expr α :=
  tail.foldl (fun e p => .join p.1 e p.2) first

/-- The tree of a chain: its first operand, and the operators with the operands after them. -/
def Rank.nest (r : Rank) (first : Expr α) (tail : List (Operator × Expr α)) : Expr α :=
  match r with
  | .power => .nestRight first tail
  | _ => .nestLeft first tail

/-- The rank that binds one step tighter. -/
def Rank.tighter? : Rank → Option Rank
  | boolean => some relational
  | relational => some sum
  | sum => some product
  | product => some power
  | power => none

/-- What can be read off the front of tokens. -/
inductive Phrase (α : Type) where
  | expression (e : Expr α)
  /-- A chain of operators of a rank: the first operand, and the operators with those after them. -/
  | chain (r : Rank) (first : Expr α) (tail : List (Operator × Expr α))
  /-- What stands between operators of a rank. -/
  | operand (r : Rank) (e : Expr α)
  | atom (e : Expr α)
  /-- The arguments of a call, with commas between them. -/
  | arguments (es : List (Expr α))
  /-- Arguments with a comma before each. -/
  | moreArguments (es : List (Expr α))

section Rules

variable [Arithmetic α] [Numeral α]

/-- The conventional reading of tokens. -/
inductive Reads (scope : Scope α) : Phrase α → List Token → List Token → Prop
  | unconditional {first tail ts rest} (h : Reads scope (.chain .boolean first tail) ts rest) :
      Reads scope (.expression (Rank.boolean.nest first tail)) ts rest
  /-- A condition and its two branches. -/
  | conditional {first tail a b q c ts us vs rest}
      (h : Reads scope (.chain .boolean first tail) ts (q :: us)) (hq : q.isSymbol "?")
      (ha : Reads scope (.expression a) us (c :: vs)) (hc : c.isSymbol ":")
      (hb : Reads scope (.expression b) vs rest) :
      Reads scope (.expression (.call Reckon.conditional [Rank.boolean.nest first tail, a, b])) ts
        rest
  | single {r e ts rest} (h : Reads scope (.operand r e) ts rest) :
      Reads scope (.chain r e []) ts rest
  | more {r e op first tail t ts us rest} (h : Reads scope (.operand r e) ts (t :: us))
      (ht : t.isAnySymbol) (hop : r.operators.lookup t.trigger = some op)
      (hr : Reads scope (.chain r first tail) us rest) :
      Reads scope (.chain r e ((op, first) :: tail)) ts rest
  /-- A number with a minus sign directly after an operand is added to it. -/
  | glued {e first tail t ts us rest} (h : Reads scope (.operand .sum e) ts (t :: us))
      (ht : Grammar.isNegative t) (hr : Reads scope (.chain .sum first tail) (t :: us) rest) :
      Reads scope (.chain .sum e ((.add, first) :: tail)) ts rest
  | inner {r r' first tail ts rest} (hr : r.tighter? = some r')
      (h : Reads scope (.chain r' first tail) ts rest) :
      Reads scope (.operand r (r'.nest first tail)) ts rest
  | innermost {e ts rest} (h : Reads scope (.atom e) ts rest) :
      Reads scope (.operand .power e) ts rest
  | negation {e t ts rest} (ht : t.isSymbol "-") (h : Reads scope (.atom e) ts rest) :
      Reads scope (.atom (.binary .subtract (.constant Arithmetic.zero) e true)) (t :: ts) rest
  /-- A plus sign before a bracket or a number says nothing. -/
  | plus {e p t ts rest} (hp : p.isSymbol "+") (ht : t.isSymbol "(" ∨ t.isNumber)
      (h : Reads scope (.atom e) (t :: ts) rest) : Reads scope (.atom e) (p :: t :: ts) rest
  | brackets {e t u ts rest} (ht : t.isSymbol "(") (h : Reads scope (.expression e) ts (u :: rest))
      (hu : u.isSymbol ")") : Reads scope (.atom e.sealTop) (t :: ts) rest
  | bars {e t u ts rest} (ht : t.isSymbol "|") (h : Reads scope (.expression e) ts (u :: rest))
      (hu : u.isSymbol "|") : Reads scope (.atom (.call absolute [e])) (t :: ts) rest
  | call {f es t u v ts rest} (ht : t.isIdentifier) (hu : u.isSymbol "(")
      (hf : scope.findFunction? t.contents = some f)
      (h : Reads scope (.arguments es) ts (v :: rest)) (hv : v.isSymbol ")") :
      Reads scope (.atom (.call f es)) (t :: u :: ts) rest
  | named {v t rest} (ht : t.isIdentifier) (hv : scope.findVariable? t.contents = some v) :
      Reads scope (.atom (.variable v)) (t :: rest) rest
  | number {d t rest} (ht : t.isNumber) (hd : Decimal.read? t.contents.toList = some d) :
      Reads scope (.atom (.constant (Numeral.ofDecimal d))) (t :: rest) rest
  | scaled {d k t q rest} (ht : t.isNumber) (hd : Decimal.read? t.contents.toList = some d)
      (hq : q.isIdentifier) (hk : Quantifier.named? q.contents = some k) :
      Reads scope (.atom (.constant (Numeral.scale k (Numeral.ofDecimal d)))) (t :: q :: rest) rest
  | noArguments {rest} : Reads scope (.arguments []) rest rest
  | someArguments {e es ts us rest} (h : Reads scope (.expression e) ts us)
      (hs : Reads scope (.moreArguments es) us rest) : Reads scope (.arguments (e :: es)) ts rest
  | noMore {rest} : Reads scope (.moreArguments []) rest rest
  | oneMore {e es t ts us rest} (ht : t.isSymbol ",") (h : Reads scope (.expression e) ts us)
      (hs : Reads scope (.moreArguments es) us rest) :
      Reads scope (.moreArguments (e :: es)) (t :: ts) rest

end Rules

/-! ### Operands -/

/-- Whether a tree stays in one piece when an operator of rank `r` is put in front of it: it is no
unsealed operator of this rank or a looser one. -/
def Expr.IsOperand (r : Rank) : Expr α → Prop
  | .binary op _ _ false => r.number < op.rank.number
  | _ => True

namespace Rank

theorem number_le (r : Rank) : r.number ≤ 5 := by
  cases r <;> decide

theorem number_lt_of_tighter? {r r' : Rank} (h : r.tighter? = some r') : r.number < r'.number := by
  cases r <;> simp [tighter?] at h <;> subst h <;> decide

@[simp] theorem nest_nil (r : Rank) (first : Expr α) : r.nest first [] = first := by
  cases r <;> rfl

/-- The tree of a chain of more than one operand is an operator of the chain. -/
theorem nest_eq_join (r : Rank) (first : Expr α) {tail : List (Operator × Expr α)}
    (h : tail ≠ []) :
    ∃ op ∈ tail.map Prod.fst, ∃ left right, r.nest first tail = .join op left right := by
  obtain ⟨init, ⟨op, e⟩, rfl⟩ := (List.eq_nil_or_concat tail).resolve_left h
  rw [List.concat_eq_append]
  have hleft : ∃ left right, Expr.nestLeft first (init ++ [(op, e)]) = .join op left right := by
    simp [Expr.nestLeft]
  cases r with
  | power =>
    cases init with
    | nil => exact ⟨op, by simp, first, e, rfl⟩
    | cons p init => exact ⟨p.1, by simp, first, _, rfl⟩
  | _ => exact ⟨op, by simp, hleft⟩

end Rank

namespace Expr

theorem IsOperand.of_tighter {r r' : Rank} {e : Expr α} (h : e.IsOperand r')
    (hr : r.number ≤ r'.number) : e.IsOperand r := by
  unfold IsOperand at h ⊢
  split
  · exact Nat.lt_of_le_of_lt hr h
  · trivial

theorem isOperand_sealTop (r : Rank) (e : Expr α) : e.sealTop.IsOperand r := by
  cases e <;> trivial

/-- The tree of a chain is an operand of every looser rank. -/
theorem isOperand_nest {r r' : Rank} {first : Expr α} {tail : List (Operator × Expr α)}
    (hr : r.tighter? = some r') (hf : first.IsOperand r') (ht : ∀ p ∈ tail, p.1.rank = r') :
    (r'.nest first tail).IsOperand r := by
  have hlt := Rank.number_lt_of_tighter? hr
  by_cases h : tail = []
  · subst h
    simpa using hf.of_tighter (Nat.le_of_lt hlt)
  · obtain ⟨op, hop, left, right, he⟩ := r'.nest_eq_join first h
    obtain ⟨p, hp, rfl⟩ := List.mem_map.1 hop
    rw [he]
    simpa [join, IsOperand, ht p hp] using hlt

theorem graft_of_isOperand {e : Expr α} (left : Expr α) {op : Operator} (h : e.IsOperand op.rank) :
    graft left op e = join op left e := by
  cases e with
  | binary op' l r s =>
    cases s with
    | true => rfl
    | false =>
      have : op'.rank ≠ op.rank := fun he => by simp [IsOperand, he] at h
      simp [graft, this]
  | _ => rfl

/-- Grafting goes down to the first operand of a chain. -/
theorem graft_nestLeft {first : Expr α} {tail : List (Operator × Expr α)} (left : Expr α)
    {op : Operator} (hf : first.IsOperand op.rank) (ht : ∀ p ∈ tail, p.1.rank = op.rank) :
    graft left op (nestLeft first tail) = nestLeft left ((op, first) :: tail) := by
  -- The last operator of a chain is the root of its tree, so the chain is taken apart from the end.
  induction tail using List.reverseRecOn with
  | nil => exact graft_of_isOperand left hf
  | append_singleton tail p ih =>
    have hp : p.1.rank = op.rank := ht p (by simp)
    have ih := ih fun q hq => ht q (by simp [hq])
    simp only [nestLeft, List.foldl_append, List.foldl_cons, List.foldl_nil] at ih ⊢
    simp [join, graft, hp, ih]

end Expr

/-- Putting an operand and an operator in front of the tree of a chain gives the tree of the chain
that begins with them. -/
theorem Grammar.combine_nest {r : Rank} {first : Expr α} {tail : List (Operator × Expr α)}
    (left : Expr α) {op : Operator} (hop : op.rank = r) (hf : first.IsOperand r)
    (ht : ∀ p ∈ tail, p.1.rank = r) :
    combine r left op (r.nest first tail) = r.nest left ((op, first) :: tail) := by
  subst hop
  cases h : op.rank with
  | power => simp [combine, Rank.nest, Expr.nestRight]
  | _ =>
    rw [h] at hf ht
    simpa [combine, Rank.nest] using Expr.graft_nestLeft left (h ▸ hf) (h ▸ ht)

/-! ### What readings are like -/

/-- What holds of everything that is read: the operands of a chain stay in one piece, and its
operators are of its rank. -/
def Phrase.Formed : Phrase α → Prop
  | expression _ => True
  | chain r first tail => first.IsOperand r ∧ ∀ p ∈ tail, p.1.rank = r
  | operand r e => e.IsOperand r
  | atom e => ∀ r, e.IsOperand r
  | arguments _ => True
  | moreArguments _ => True

/-- A spelling that is looked up for a rank is one of an operator of that rank. -/
theorem Rank.rank_of_lookup {r : Rank} {s : String} {op : Operator}
    (h : r.operators.lookup s = some op) : op.rank = r := by
  obtain ⟨before, after, he, -⟩ := List.lookup_eq_some_iff.1 h
  exact rank_of_mem_operators (s := s) (by simp [he])

section Facts

variable [Arithmetic α] [Numeral α] {scope : Scope α} {ph : Phrase α} {ts rest : List Token}

theorem Reads.formed (h : Reads scope ph ts rest) : ph.Formed := by
  induction h with
  | single _ ih => exact ⟨ih, by simp⟩
  | more _ _ hop _ ih ihr =>
    refine ⟨ih, ?_⟩
    intro p hp
    rcases List.mem_cons.1 hp with rfl | hp
    · exact Rank.rank_of_lookup hop
    · exact ihr.2 p hp
  | glued _ _ _ ih ihr => exact ⟨ih, by simpa [Operator.rank] using ihr.2⟩
  | inner hr _ ih => exact Expr.isOperand_nest hr ih.1 ih.2
  | innermost _ ih => exact ih _
  | negation => intro _; trivial
  | plus _ _ _ ih => exact ih
  | brackets => exact fun r => Expr.isOperand_sealTop r _
  | bars => intro _; trivial
  | call => intro _; trivial
  | named => intro _; trivial
  | number => intro _; trivial
  | scaled => intro _; trivial
  | _ => trivial

/-- Only an empty list of arguments can be read without taking a token. -/
def Phrase.IsEmpty (ph : Phrase α) : Prop := ph = arguments [] ∨ ph = moreArguments []

/-- A reading depends on nothing but the tokens that it takes. -/
theorem Reads.exists_taken (h : Reads scope ph ts rest) :
    ∃ taken, ts = taken ++ rest ∧ (taken = [] → ph.IsEmpty) ∧
      ∀ other, Reads scope ph (taken ++ other) other := by
  induction h with
  | unconditional _ ih =>
    obtain ⟨taken, rfl, hne, ih⟩ := ih
    exact ⟨taken, rfl, fun h => by simpa [Phrase.IsEmpty] using hne h,
      fun o => .unconditional (ih o)⟩
  | @conditional _ _ _ _ q c _ _ _ _ _ hq _ hc _ ih iha ihb =>
    obtain ⟨taken, rfl, -, ih⟩ := ih
    obtain ⟨takenA, rfl, -, iha⟩ := iha
    obtain ⟨takenB, rfl, -, ihb⟩ := ihb
    refine ⟨taken ++ q :: (takenA ++ c :: takenB), by simp, by simp, fun o => ?_⟩
    simp only [List.append_assoc, List.cons_append]
    exact .conditional (ih _) hq (iha _) hc (ihb o)
  | single _ ih =>
    obtain ⟨taken, rfl, hne, ih⟩ := ih
    exact ⟨taken, rfl, fun h => by simpa [Phrase.IsEmpty] using hne h, fun o => .single (ih o)⟩
  | @more _ _ _ _ _ t _ _ _ _ ht hop _ ih ihr =>
    obtain ⟨taken, rfl, -, ih⟩ := ih
    obtain ⟨takenR, rfl, -, ihr⟩ := ihr
    refine ⟨taken ++ t :: takenR, by simp, by simp, fun o => ?_⟩
    simp only [List.append_assoc, List.cons_append]
    exact .more (ih _) ht hop (ihr o)
  | @glued _ _ _ t _ _ _ _ ht _ ih ihr =>
    -- The number is looked at before it is read, so the rest of the chain has to take it.
    obtain ⟨taken, rfl, -, ih⟩ := ih
    obtain ⟨takenR, hR, hne, ihr⟩ := ihr
    cases takenR with
    | nil => simp [Phrase.IsEmpty] at hne
    | cons t' takenR =>
      obtain ⟨rfl, rfl⟩ := List.cons.inj hR
      refine ⟨taken ++ t :: takenR, by simp, by simp, fun o => ?_⟩
      simp only [List.append_assoc, List.cons_append]
      exact .glued (ih _) ht (ihr o)
  | inner hr _ ih =>
    obtain ⟨taken, rfl, hne, ih⟩ := ih
    exact ⟨taken, rfl, fun h => by simpa [Phrase.IsEmpty] using hne h, fun o => .inner hr (ih o)⟩
  | innermost _ ih =>
    obtain ⟨taken, rfl, hne, ih⟩ := ih
    exact ⟨taken, rfl, fun h => by simpa [Phrase.IsEmpty] using hne h, fun o => .innermost (ih o)⟩
  | negation ht _ ih =>
    obtain ⟨taken, rfl, -, ih⟩ := ih
    exact ⟨_ :: taken, rfl, by simp, fun o => .negation ht (ih o)⟩
  | plus hp ht _ ih =>
    obtain ⟨taken, hts, hne, ih⟩ := ih
    cases taken with
    | nil => simp [Phrase.IsEmpty] at hne
    | cons t' taken =>
      obtain ⟨rfl, rfl⟩ := List.cons.inj hts
      exact ⟨_ :: _ :: taken, rfl, by simp, fun o => .plus hp ht (ih o)⟩
  | @brackets _ t u _ _ ht _ hu ih =>
    obtain ⟨taken, rfl, -, ih⟩ := ih
    refine ⟨t :: (taken ++ [u]), by simp, by simp, fun o => ?_⟩
    simp only [List.append_assoc, List.cons_append, List.nil_append]
    exact .brackets ht (ih _) hu
  | @bars _ t u _ _ ht _ hu ih =>
    obtain ⟨taken, rfl, -, ih⟩ := ih
    refine ⟨t :: (taken ++ [u]), by simp, by simp, fun o => ?_⟩
    simp only [List.append_assoc, List.cons_append, List.nil_append]
    exact .bars ht (ih _) hu
  | @call _ _ t u v _ _ ht hu hf _ hv ih =>
    obtain ⟨taken, rfl, -, ih⟩ := ih
    refine ⟨t :: u :: (taken ++ [v]), by simp, by simp, fun o => ?_⟩
    simp only [List.append_assoc, List.cons_append, List.nil_append]
    exact .call ht hu hf (ih _) hv
  | named ht hv => exact ⟨[_], rfl, by simp, fun o => .named ht hv⟩
  | number ht hd => exact ⟨[_], rfl, by simp, fun o => .number ht hd⟩
  | scaled ht hd hq hk => exact ⟨[_, _], rfl, by simp, fun o => .scaled ht hd hq hk⟩
  | noArguments => exact ⟨[], rfl, fun _ => .inl rfl, fun o => .noArguments⟩
  | someArguments _ _ ih ihs =>
    obtain ⟨taken, rfl, hne, ih⟩ := ih
    obtain ⟨takenS, rfl, -, ihs⟩ := ihs
    refine ⟨taken ++ takenS, by simp, fun h => ?_, fun o => ?_⟩
    · simpa [Phrase.IsEmpty] using hne (List.append_eq_nil_iff.1 h).1
    · rw [List.append_assoc]
      exact .someArguments (ih _) (ihs o)
  | noMore => exact ⟨[], rfl, fun _ => .inr rfl, fun o => .noMore⟩
  | @oneMore _ _ t _ _ _ ht _ _ ih ihs =>
    obtain ⟨taken, rfl, -, ih⟩ := ih
    obtain ⟨takenS, rfl, -, ihs⟩ := ihs
    refine ⟨t :: (taken ++ takenS), by simp, by simp, fun o => ?_⟩
    simp only [List.append_assoc, List.cons_append]
    exact .oneMore ht (ih _) (ihs o)

end Facts

end Reckon
