import Reckon.Proofs.Folding
import Reckon.Proofs.NormalForm

/-!
# Constants in chains

A chain is a sum or a product of any number of operands, however its operators are nested.
Simplification means to bring the constants of a chain together. It looks for them at the front of
a right operand, and merges two of them where one is an operand by itself. A constant at the front
of a left operand stays where it is, and if the right operand is no constant, then nothing that
happens further up reaches it any more. So a chain is left with one constant for every operator at
which this is so, and with one more if there is a constant at its own front.

## Main definitions

* `Expr.operands`, `Expr.chains` — the operands of a chain, and the chains in a tree.
* `Expr.leads`, `Expr.stranded` — the constant at the front of a chain, and those that stay behind.

## Main statements

* `Expr.constantsIn_gather` — when two constants are merged.
* `Expr.chains_simplify` — the chains of a simplified tree, and how many constants each has.
* `Expr.gathered_iff_of_simplify` — when no chain is left with two constants.
* `Calculator.compile_stranded` — a formula that is left with two.
-/

namespace Reckon

variable {α : Type}

namespace Expr

/-- The operands of the chain of `op` that a tree is, from left to right. Any other tree is an
operand by itself. -/
def operands (op : Operator) : Expr α → List (Expr α)
  | binary op' l r b => if op' = op then l.operands op ++ r.operands op else [binary op' l r b]
  | e => [e]

/-- How many operands of a chain are constants. -/
def constantsIn (op : Operator) (e : Expr α) : Nat := (e.operands op).countP isConstant

/-- There is a constant at the front of a chain, or it is a constant itself. -/
def isFronted (op : Operator) (e : Expr α) : Bool := e.isConstant || e.leadsWithConstant op

end Expr

mutual

/-- The chains in a tree that stands below an operator, or below none, each as its operator and its
topmost node. A node below one of the same operator belongs to the chain of that one. -/
def Expr.chainsBelow (above : Option Operator) : Expr α → List (Operator × Expr α)
  | .constant _ => []
  | .variable _ => []
  | .binary op l r b =>
    (if op.isCommutative && above != some op then [(op, .binary op l r b)] else []) ++
      (l.chainsBelow (some op) ++ r.chainsBelow (some op))
  | .call _ arguments => Expr.chainsOfAll arguments

/-- The chains in several trees. -/
def Expr.chainsOfAll : List (Expr α) → List (Operator × Expr α)
  | [] => []
  | e :: es => e.chainsBelow none ++ Expr.chainsOfAll es

end

namespace Expr

/-- The chains of sums and of products in a tree, none of them a part of a longer one. -/
def chains (e : Expr α) : List (Operator × Expr α) := e.chainsBelow none

variable [Arithmetic α]

/-- Simplification brings a constant to the front of the chain of `op` that a tree is. -/
def leads (s : Store α) (op : Operator) : Expr α → Bool
  | binary op' l r b =>
    (binary op' l r b).isClosed s || (op' == op && (l.isClosed s || r.leads s op))
  | e => e.isClosed s

/-- The operators of a chain at which a constant stays behind: it is at the front of the left
operand, and neither operand is a constant. -/
def stranded (s : Store α) (op : Operator) : Expr α → Nat
  | binary op' l r _ =>
    if op' = op then
      l.stranded s op + r.stranded s op +
        (l.leads s op && !l.isClosed s && !r.isClosed s).toNat
    else 0
  | _ => 0

/-- How many constants simplification leaves in a chain. -/
def constantsLeft (s : Store α) (op : Operator) (e : Expr α) : Nat :=
  e.stranded s op + (e.leads s op).toNat

/-! ### Gathering two operands -/

/-- What gathering two operands of an operator comes to. -/
inductive Gathering (op : Operator) : Expr α → Expr α → Bool → Expr α → Prop
  /-- Two constants are folded. -/
  | fold {x y b} : Gathering op (constant x) (constant y) b (constant (Arithmetic.apply op x y))
  /-- A constant is merged with the one at the front of the right operand. -/
  | merge {x y rest b b'} (hop : op.isCommutative) :
    Gathering op (constant x) (binary op (constant y) rest b') b
      (join op (constant (Arithmetic.apply op x y)) rest)
  /-- A constant changes places with the left operand, and is merged with the one at its front. -/
  | mergeSwapped {x y rest b b'} (hop : op.isCommutative) :
    Gathering op (binary op (constant y) rest b') (constant x) b
      (join op (constant (Arithmetic.apply op x y)) rest)
  /-- The constant at the front of the right operand is moved outward. -/
  | rotate {l y rest b b'} (hop : op.isCommutative) (hl : l.isConstant = false) :
    Gathering op l (binary op (constant y) rest b') b (join op (constant y) (join op l rest))
  /-- A constant changes places with the left operand. -/
  | swap {l y b} (hop : op.isCommutative) (hl : l.isFronted op = false) :
    Gathering op l (constant y) b (binary op (constant y) l b)
  /-- Nothing is done. -/
  | keep {l r b} (hc : ¬(l.isConstant ∧ r.isConstant))
    (hr : op.isCommutative → r.isFronted op = false) : Gathering op l r b (binary op l r b)

section Gather

variable {op op' : Operator} {l r e : Expr α} {b : Bool}

omit [Arithmetic α] in
@[simp] theorem isConstant_constant (x : α) : (constant x).isConstant = true := rfl

omit [Arithmetic α] in
@[simp] theorem isConstant_binary : (binary op l r b).isConstant = false := rfl

omit [Arithmetic α] in
@[simp] theorem isFronted_constant (x : α) : (constant x).isFronted op = true := rfl

omit [Arithmetic α] in
@[simp] theorem isFronted_binary :
    (binary op' l r b).isFronted op = (op' == op && l.isConstant) := rfl

omit [Arithmetic α] in
theorem isConstant_of_not_isFronted (h : e.isFronted op = false) : e.isConstant = false :=
  (Bool.or_eq_false_iff.1 h).1

theorem gathering_regroup (hop : op.isCommutative) (hr : r.isConstant = false) (b : Bool) :
    Gathering op l r b (regroup op l r b) := by
  unfold regroup
  split
  · next op' y rest b' =>
    split
    · next h =>
      obtain ⟨-, rfl⟩ : op.isCommutative ∧ op' = op := by simpa using h
      split
      · exact .merge hop
      · next hl => exact .rotate hop (isConstant_of_ne hl)
    · next h =>
      refine .keep (by simp [hr]) fun _ => ?_
      have hne : op' ≠ op := by
        rintro rfl
        simp [hop] at h
      simp [hne]
  · next hother =>
    refine .keep (by simp [hr]) fun _ => ?_
    cases r with
    | constant x => cases hr
    | binary op' l' r' b' =>
      cases l' with
      | constant y => exact absurd rfl (hother op' y r' b')
      | _ => simp [isConstant]
    | _ => rfl

/-- Gathering is one of six things. -/
theorem gathering_gather (op : Operator) (l r : Expr α) (b : Bool) :
    Gathering op l r b (gather op l r b) := by
  unfold gather
  split
  · exact .fold
  · next y hl =>
    have hl := isConstant_of_ne hl
    split
    · next hop =>
      -- The constant has changed places, so that the left operand is looked at for another one.
      have h := gathering_regroup (l := constant y) hop hl b
      generalize regroup op (constant y) l b = e at h
      cases h with
      | fold => cases hl
      | merge => exact .mergeSwapped hop
      | rotate _ h => cases h
      | swap _ h => cases h
      | keep _ h => exact .swap hop (h hop)
    · next hop => exact .keep (by simp [hl]) fun h => absurd h hop
  · next hr _ =>
    by_cases hop : op.isCommutative
    · exact gathering_regroup hop (isConstant_of_ne hr) b
    · have h : regroup op l r b = binary op l r b := by
        unfold regroup
        split
        · simp [hop]
        · rfl
      rw [h]
      exact .keep (by simp [isConstant_of_ne hr]) fun h => absurd h hop

/-! ### Counting constants -/

omit [Arithmetic α]

@[simp] theorem constantsIn_constant (x : α) : (constant x).constantsIn op = 1 := rfl

@[simp] theorem constantsIn_binary :
    (binary op l r b).constantsIn op = l.constantsIn op + r.constantsIn op := by
  rw [constantsIn, operands, if_pos rfl, List.countP_append]
  rfl

theorem constantsIn_of_ne (h : op' ≠ op) : (binary op' l r b).constantsIn op = 0 := by
  rw [constantsIn, operands, if_neg h]
  rfl

variable [Arithmetic α]

/-- Gathering loses a constant if one operand is a constant and the other has one at its front. -/
theorem constantsIn_gather (hop : op.isCommutative) :
    (gather op l r b).constantsIn op +
        (l.isConstant && r.isFronted op || r.isConstant && l.isFronted op).toNat =
      l.constantsIn op + r.constantsIn op := by
  have h := gathering_gather op l r b
  generalize gather op l r b = e at h ⊢
  cases h with
  | fold => rfl
  | merge =>
    simp
    omega
  | mergeSwapped => simp
  | rotate _ hl =>
    simp [hl]
    omega
  | swap _ hl =>
    simp [isConstant_of_not_isFronted hl, hl]
    omega
  | keep _ hr => simp [isConstant_of_not_isFronted (hr hop), hr hop]

/-- There is a constant at the front of what is gathered if the left operand is one, or if there is
one at the front of the right operand. -/
theorem isFronted_gather (hop : op.isCommutative) :
    (gather op l r b).isFronted op = (l.isConstant || r.isFronted op) := by
  have h := gathering_gather op l r b
  generalize gather op l r b = e at h ⊢
  cases h with
  | keep _ hr => simp [hr hop]
  | _ => simp

end Gather

/-! ### What is left in a chain -/

section Simplify

variable {s : Store α} {op : Operator} {e e' l l' r r' : Expr α}

theorem isConstant_of_simplify (h : (e.simplify s).outcome = .ok e') :
    e'.isConstant = e.isClosed s := by
  have hfolded := outcomes_simplify (s := s) e
  rw [h] at hfolded
  generalize (tryAll s (e.closedCalls s)).outcome = y at hfolded
  cases hfolded with
  | ok hfolded => exact hfolded.isConstant_eq

theorem leads_of_isClosed (h : e.isClosed s) : e.leads s op := by
  cases e with
  | binary => rw [leads, h, Bool.true_or]
  | _ => exact h

theorem leads_binary {b : Bool} :
    (binary op l r b).leads s op = (l.isClosed s || r.leads s op) := by
  rw [leads, isClosed, beq_self_eq_true, Bool.true_and]
  cases hl : l.isClosed s with
  | true => simp
  | false => simp

theorem stranded_binary {b : Bool} : (binary op l r b).stranded s op =
    l.stranded s op + r.stranded s op +
      (l.leads s op && !l.isClosed s && !r.isClosed s).toNat := by
  rw [stranded, if_pos rfl]

/-- A tree and what it is simplified to, as far as the chain of `op` is concerned that they are. -/
structure Counted (s : Store α) (op : Operator) (e e' : Expr α) : Prop where
  isConstant_eq : e'.isConstant = e.isClosed s
  isFronted_eq : e'.isFronted op = e.leads s op
  constantsIn_eq : e'.constantsIn op = e.constantsLeft s op

theorem Counted.gather {b : Bool} (hop : op.isCommutative) (hl : Counted s op l l')
    (hr : Counted s op r r') : Counted s op (binary op l r b) (gather op l' r' b) := by
  have hcount := constantsIn_gather (l := l') (r := r') (b := b) hop
  refine ⟨?_, ?_, ?_⟩
  · rw [isConstant_gather, hl.isConstant_eq, hr.isConstant_eq, isClosed]
  · rw [isFronted_gather hop, hl.isConstant_eq, hr.isFronted_eq, leads_binary]
  · rw [hl.isConstant_eq, hl.isFronted_eq, hl.constantsIn_eq, hr.isConstant_eq, hr.isFronted_eq,
      hr.constantsIn_eq, constantsLeft, constantsLeft] at hcount
    rw [constantsLeft, stranded_binary, leads_binary]
    -- What is left depends on whether the operands are closed and on what is at their fronts.
    have hl' : l.isClosed s → l.leads s op := leads_of_isClosed
    have hr' : r.isClosed s → r.leads s op := leads_of_isClosed
    revert hcount hl' hr'
    cases l.isClosed s <;> cases r.isClosed s <;> cases l.leads s op <;> cases r.leads s op <;>
      simp <;> omega

/-- Neither a tree nor what it is simplified to is a chain of `op`. -/
theorem counted_of_operand (hconst : e'.isConstant = e.isClosed s)
    (he : ∀ l r b, e ≠ binary op l r b) (he' : ∀ l r b, e' ≠ binary op l r b) :
    Counted s op e e' := by
  have hleads : e.leads s op = e.isClosed s ∧ e.stranded s op = 0 := by
    cases e with
    | binary op' l r b =>
      have hne : op' ≠ op := by
        rintro rfl
        exact he l r b rfl
      rw [leads, stranded, beq_false_of_ne hne, if_neg hne, Bool.false_and, Bool.or_false]
      exact ⟨rfl, rfl⟩
    | _ => exact ⟨rfl, rfl⟩
  have hcount : e'.isFronted op = e'.isConstant ∧ e'.constantsIn op = e'.isConstant.toNat := by
    cases e' with
    | binary op' l r b =>
      have hne : op' ≠ op := by
        rintro rfl
        exact he' l r b rfl
      rw [isFronted_binary, constantsIn_of_ne hne, beq_false_of_ne hne, Bool.false_and]
      exact ⟨rfl, rfl⟩
    | _ => exact ⟨rfl, rfl⟩
  refine ⟨hconst, ?_, ?_⟩
  · rw [hcount.1, hleads.1, hconst]
  · rw [hcount.2, constantsLeft, hleads.1, hleads.2, hconst, Nat.zero_add]

/-- What is no chain of `op` is not simplified to one. -/
theorem ne_chain_of_simplify (h : (e.simplify s).outcome = .ok e')
    (he : ∀ l r b, e ≠ binary op l r b) : ∀ l r b, e' ≠ binary op l r b := by
  cases e with
  | constant x =>
    rw [simplify] at h
    obtain rfl := Except.ok.inj h
    exact he
  | «variable» v =>
    rw [simplify] at h
    obtain rfl := Except.ok.inj h
    split <;> simp
  | binary op' l r b =>
    obtain ⟨l', r', -, -, rfl⟩ := exists_of_simplify_binary h
    have hne : op' ≠ op := by
      rintro rfl
      exact he l r b rfl
    have hg := gathering_gather op' l' r' b
    generalize Expr.gather op' l' r' b = e at hg ⊢
    cases hg with
    | fold => simp
    | _ => exact fun _ _ _ he => hne (binary.inj he).1
  | call f es =>
    rw [simplify] at h
    obtain ⟨es', -, h⟩ := Run.outcome_bind_eq_ok.1 h
    split at h
    · obtain ⟨x, -, h⟩ := Run.outcome_bind_eq_ok.1 h
      obtain rfl := Except.ok.inj h
      simp
    · obtain rfl := Except.ok.inj h
      simp

/-- How many constants simplification leaves in the chain of a commutative operator. -/
theorem counted_of_simplify : ∀ (e : Expr α) {e' : Expr α}, op.isCommutative →
    (e.simplify s).outcome = .ok e' → Counted s op e e'
  | .constant x, e', _, h =>
    counted_of_operand (isConstant_of_simplify h) (by simp) (ne_chain_of_simplify h (by simp))
  | .variable v, e', _, h =>
    counted_of_operand (isConstant_of_simplify h) (by simp) (ne_chain_of_simplify h (by simp))
  | .binary op' l r b, e', hop, h => by
    by_cases hne : op = op'
    · subst hne
      obtain ⟨l', r', hl, hr, rfl⟩ := exists_of_simplify_binary h
      exact (counted_of_simplify l hop hl).gather hop (counted_of_simplify r hop hr)
    · -- The node is an operand of the chain, whatever becomes of its own operands.
      have he : ∀ l' r' b', binary op' l r b ≠ binary op l' r' b' :=
        fun _ _ _ he => hne (binary.inj he).1.symm
      exact counted_of_operand (isConstant_of_simplify h) he (ne_chain_of_simplify h he)
  | .call f es, e', _, h =>
    counted_of_operand (isConstant_of_simplify h) (by simp) (ne_chain_of_simplify h (by simp))

/-! ### Chains -/

/-- The chains of what is gathered are those of the operands, with the operator on top of them
unless it has been folded. -/
theorem chainsBelow_gather (above : Option Operator) (b : Bool) :
    (Expr.gather op l r b).chainsBelow above =
      if l.isConstant && r.isConstant then [] else
        (if op.isCommutative && above != some op then [(op, Expr.gather op l r b)] else []) ++
          (l.chainsBelow (some op) ++ r.chainsBelow (some op)) := by
  have h := gathering_gather op l r b
  generalize Expr.gather op l r b = e at h ⊢
  cases h with
  | fold => simp [chainsBelow]
  | merge => simp [chainsBelow]
  | mergeSwapped => simp [chainsBelow]
  | rotate _ hl => simp [chainsBelow, hl]
  | swap _ hl => simp [chainsBelow, isConstant_of_not_isFronted hl]
  | keep hc =>
    have hc : ¬(l.isConstant && r.isConstant) := by simpa using hc
    rw [chainsBelow, if_neg hc]

mutual

theorem chainsBelow_of_isClosed (above : Option Operator) :
    ∀ {e : Expr α}, e.isClosed s → ∀ c ∈ e.chainsBelow above, c.2.isClosed s
  | .constant x, _ => by simp [chainsBelow]
  | .variable v, _ => by simp [chainsBelow]
  | .binary op l r b, h => by
    have hlr := h
    rw [isClosed, Bool.and_eq_true] at hlr
    rw [chainsBelow, List.forall_mem_append, List.forall_mem_append]
    refine ⟨?_, chainsBelow_of_isClosed _ hlr.1, chainsBelow_of_isClosed _ hlr.2⟩
    split
    · simpa using h
    · simp
  | .call f es, h => by
    rw [isClosed, Bool.and_eq_true] at h
    rw [chainsBelow]
    exact chainsOfAll_of_allClosed h.2

theorem chainsOfAll_of_allClosed :
    ∀ {es : List (Expr α)}, allClosed s es → ∀ c ∈ chainsOfAll es, c.2.isClosed s
  | [], _ => by simp [chainsOfAll]
  | e :: es, h => by
    rw [allClosed, Bool.and_eq_true] at h
    rw [chainsOfAll, List.forall_mem_append]
    exact ⟨chainsBelow_of_isClosed _ h.1, chainsOfAll_of_allClosed h.2⟩

end

/-- The operator of a chain and the number of the constants in it. -/
def tally (c : Operator × Expr α) : Operator × Nat := (c.1, c.2.constantsIn c.1)

/-- The operator of a chain and the number of the constants that simplification leaves in it. -/
def tallyLeft (s : Store α) (c : Operator × Expr α) : Operator × Nat :=
  (c.1, c.2.constantsLeft s c.1)

/-- A chain is not worked out as a whole. -/
def isOpen (s : Store α) (c : Operator × Expr α) : Bool := !c.2.isClosed s

theorem filter_chainsBelow_of_isClosed (above : Option Operator) (h : e.isClosed s) :
    (e.chainsBelow above).filter (isOpen s) = [] :=
  List.filter_eq_nil_iff.2 fun c hc => by simp [isOpen, chainsBelow_of_isClosed above h c hc]

omit [Arithmetic α] in
theorem chainsBelow_of_isConstant (above : Option Operator) (h : e.isConstant) :
    e.chainsBelow above = [] := by
  cases e with
  | constant x => rw [chainsBelow]
  | _ => cases h

/-- Nothing is left of the chains in a closed tree. -/
theorem chainsBelow_simplify_of_isClosed (above : Option Operator) (hclosed : e.isClosed s)
    (h : (e.simplify s).outcome = .ok e') :
    (e'.chainsBelow above).map tally =
      ((e.chainsBelow above).filter (isOpen s)).map (tallyLeft s) := by
  have hconst : e'.isConstant := (isConstant_of_simplify h).trans hclosed
  rw [chainsBelow_of_isConstant above hconst, filter_chainsBelow_of_isClosed above hclosed]
  rfl

mutual

/-- The chains of a simplified tree are those of the tree it came from that are not closed, in the
same order. -/
theorem chainsBelow_simplify (above : Option Operator) :
    ∀ (e : Expr α) {e' : Expr α}, (e.simplify s).outcome = .ok e' →
      (e'.chainsBelow above).map tally = ((e.chainsBelow above).filter (isOpen s)).map (tallyLeft s)
  | .constant x, e', h => chainsBelow_simplify_of_isClosed above (by rw [isClosed]) h
  | .variable v, e', h => by
    rw [simplify] at h
    obtain rfl := Except.ok.inj h
    split <;> simp [chainsBelow]
  | .binary op l r b, e', h => by
    -- A closed node is folded, and its operands with it.
    cases hclosed : (binary op l r b).isClosed s with
    | true => exact chainsBelow_simplify_of_isClosed above hclosed h
    | false =>
      have hconst := isConstant_of_simplify h
      have hcounted (hop : op.isCommutative) := counted_of_simplify _ hop h
      obtain ⟨l', r', hl, hr, rfl⟩ := exists_of_simplify_binary h
      rw [isConstant_gather, hclosed] at hconst
      rw [chainsBelow_gather, hconst, chainsBelow, List.filter_append, List.filter_append,
        List.map_append, List.map_append, ← chainsBelow_simplify (some op) l hl,
        ← chainsBelow_simplify (some op) r hr, if_neg Bool.false_ne_true, List.map_append,
        List.map_append]
      congr 1
      split
      · next hroot =>
        have hop : op.isCommutative := (Bool.and_eq_true _ _ ▸ hroot).1
        simp [tally, tallyLeft, isOpen, hclosed, (hcounted hop).constantsIn_eq]
      · rfl
  | .call f es, e', h => by
    cases hclosed : (call f es).isClosed s with
    | true => exact chainsBelow_simplify_of_isClosed above hclosed h
    | false =>
      have hconst := isConstant_of_simplify h
      rw [simplify] at h
      obtain ⟨es', hes, h⟩ := Run.outcome_bind_eq_ok.1 h
      split at h
      · obtain ⟨x, -, h⟩ := Run.outcome_bind_eq_ok.1 h
        obtain rfl := Except.ok.inj h
        rw [hclosed] at hconst
        cases hconst
      · obtain rfl := Except.ok.inj h
        rw [chainsBelow, chainsBelow]
        exact chainsOfAll_simplify es hes

/-- The same for several trees. -/
theorem chainsOfAll_simplify :
    ∀ (es : List (Expr α)) {es' : List (Expr α)}, (simplifyAll s es).outcome = .ok es' →
      (chainsOfAll es').map tally = ((chainsOfAll es).filter (isOpen s)).map (tallyLeft s)
  | [], es', h => by
    rw [simplifyAll] at h
    obtain rfl := Except.ok.inj h
    simp [chainsOfAll]
  | e :: es, es', h => by
    rw [simplifyAll] at h
    obtain ⟨e', he, h⟩ := Run.outcome_bind_eq_ok.1 h
    obtain ⟨es'', hes, h⟩ := Run.outcome_bind_eq_ok.1 h
    obtain rfl := Except.ok.inj h
    rw [chainsOfAll, chainsOfAll, List.filter_append, List.map_append, List.map_append,
      chainsBelow_simplify none e he, chainsOfAll_simplify es hes]

end

/-- The chains of a simplified tree, one by one, and how many constants each is left with. -/
theorem chains_simplify (h : (e.simplify s).outcome = .ok e') :
    e'.chains.map tally = (e.chains.filter (isOpen s)).map (tallyLeft s) :=
  chainsBelow_simplify none e h

theorem stranded_of_isClosed : ∀ {e : Expr α}, e.isClosed s → e.stranded s op = 0
  | .constant x, _ => rfl
  | .variable v, _ => rfl
  | .binary op' l r b, h => by
    rw [isClosed, Bool.and_eq_true] at h
    rw [stranded, stranded_of_isClosed h.1, stranded_of_isClosed h.2, h.1]
    simp
  | .call f es, _ => rfl

/-- A closed tree comes to one constant. -/
theorem constantsLeft_of_isClosed (h : e.isClosed s) : e.constantsLeft s op = 1 := by
  rw [constantsLeft, stranded_of_isClosed h, leads_of_isClosed h]
  rfl

/-- No chain of a simplified tree has two constants if and only if, in the tree that it came from,
none had more than one constant that stays behind or is at its front. -/
theorem gathered_iff_of_simplify (h : (e.simplify s).outcome = .ok e') :
    (∀ c ∈ e'.chains, c.2.constantsIn c.1 ≤ 1) ↔
      ∀ c ∈ e.chains, c.2.constantsLeft s c.1 ≤ 1 := by
  have hchains := chains_simplify h
  constructor
  · intro hall c hc
    cases hclosed : c.2.isClosed s with
    | true => exact (constantsLeft_of_isClosed hclosed).le
    | false =>
      have hmem : tallyLeft s c ∈ e'.chains.map tally := by
        rw [hchains]
        exact List.mem_map_of_mem (List.mem_filter.2 ⟨hc, by simp [isOpen, hclosed]⟩)
      obtain ⟨c', hc', htally⟩ := List.mem_map.1 hmem
      have hcount : c'.2.constantsIn c'.1 = c.2.constantsLeft s c.1 := congrArg Prod.snd htally
      exact hcount ▸ hall c' hc'
  · intro hall c' hc'
    have hmem : tally c' ∈ (e.chains.filter (isOpen s)).map (tallyLeft s) := by
      rw [← hchains]
      exact List.mem_map_of_mem hc'
    obtain ⟨c, hc, htally⟩ := List.mem_map.1 hmem
    have hcount : c.2.constantsLeft s c.1 = c'.2.constantsIn c'.1 := congrArg Prod.snd htally
    exact hcount ▸ hall c (List.mem_filter.1 hc).1

end Simplify

end Expr

/-- The right operands begin with constants all the way down, also inside the call and the
difference, which are operands of the sum and have chains of their own. -/
theorem Expr.gathered_iff_of_simplify_nested :
    let x : Variable := ⟨"x", 0⟩
    let y : Variable := ⟨"y", 1⟩
    let s : Store ℚ := ⟨#[⟨7, false⟩, ⟨8, false⟩], 0⟩
    let product : Expr ℚ := .binary .multiply (.variable x)
      (.binary .multiply (.constant 3) (.variable y) true) false
    let e : Expr ℚ := .binary .add (.variable x) (.binary .add (.constant 1)
      (.binary .add (.call absolute [.binary .multiply product (.constant 5) true])
        (.binary .add (.constant 2) (.binary .subtract product (.constant 4) true) true) true)
      true) false
    ∃ e', (e.simplify s).outcome = .ok e' ∧
      e'.text = "(3 + (x + (abs((15 * (x * y))) + ((3 * (x * y)) - 4))))" ∧
      e.chains.map (fun c => c.2.constantsLeft s c.1) = [1, 1, 1] ∧
      ∀ c ∈ e'.chains, c.2.constantsIn c.1 ≤ 1 := by
  intro x y s product e
  have htext : (e.simplify s).outcome.toOption.map text =
      some "(3 + (x + (abs((15 * (x * y))) + ((3 * (x * y)) - 4))))" := by
    decide +kernel
  have hleft : e.chains.map (fun c => c.2.constantsLeft s c.1) = [1, 1, 1] := by decide +kernel
  cases h : (e.simplify s).outcome with
  | error => simp [h, Except.toOption] at htext
  | ok e' =>
    refine ⟨e', rfl, by simpa [h, Except.toOption] using htext, hleft, ?_⟩
    refine (gathered_iff_of_simplify h).2 fun c hc => ?_
    have hmem := List.mem_map_of_mem (f := fun c => c.2.constantsLeft s c.1) hc
    rw [hleft] at hmem
    simp only [List.mem_cons, List.not_mem_nil, or_false, or_self] at hmem
    exact hmem.le

/-- In a sum as plain as `2 + x + y + 3` a constant stays behind: `2` is at the front of the left
operand of `+ y`, so that it is not at the front of what `3` is added to. -/
theorem Calculator.compile_stranded :
    let c := (((new {} 0).declare "x").2.declare "y").2
    let e : Expr Float := .binary .add (.binary .add (.binary .add (.constant 2)
      (.variable ⟨"x", 1⟩) false) (.variable ⟨"y", 2⟩) false) (.constant 3) false
    let e'? := (e.simplify c.workspace.store).outcome.toOption
    let f? := (c.compile "2 + x + y + 3").1.outcome.toOption
    e'?.map Expr.text = some "(3 + ((2 + x) + y))" ∧
      e'?.map (fun e' => e'.chains.map Expr.tally) = some [(.add, 2)] ∧
      f?.map (fun f => f.expr.text) = some "(3 + ((2 + x) + y))" := by
  decide +kernel

end Reckon
