import Reckon.Proofs.Simplification

/-!
# Normal forms

Simplification comes to an end. What it gives is a normal form, in which nothing is left to be
folded, swapped or regrouped, and a normal form is simplified to itself, node for node and seals
included. This holds for any kind of numbers, and so for doubles as well.

Regrouping an operator between simplified operands makes a node that might have to be simplified
again, and whose right operand might have to be too. It never has to: the operands were in normal
form, so that what moves to the right is no constant and does not begin with one.

## Main definitions

* `Expr.IsSettled` — nothing is left to be done at an operator.
* `Expr.IsNormal` — nothing is left to be done anywhere in a tree.
* `Expr.round` — one round of rewriting an operator between simplified operands.

## Main statements

* `Expr.simplify_of_isNormal` — a normal form is simplified to itself.
* `Expr.isNormal_of_simplify` — what is simplified is a normal form, and stays one.
* `Expr.simplify_binary_eq_round` — to simplify what has been regrouped once more changes nothing.
-/

namespace Reckon

theorem Operator.isCommutative_iff {op : Operator} :
    op.isCommutative ↔ op = .add ∨ op = .multiply := by
  cases op <;> decide

/-- Runs that go on in the same way after a result are the same. -/
theorem Run.bind_congr_ok {β γ : Type} {a : Run β} {f g : β → Run γ}
    (h : ∀ x, a.outcome = .ok x → f x = g x) : a >>= f = a >>= g := by
  rcases a with ⟨e | x, entered⟩
  · rfl
  · show Run.andThen _ f = Run.andThen _ g
    simp only [Run.andThen, h x rfl]

namespace Expr

variable {α : Type}

/-- Whether a tree is the operator `op` with a constant for its left operand. -/
def leadsWithConstant (op : Operator) : Expr α → Bool
  | binary op' l _ _ => op' == op && l.isConstant
  | _ => false

/-- At an operator between `l` and `r` there is nothing to be folded. If it is a sum or a product,
there is no constant on the right either, neither by itself nor in front of an operator of the same
kind. -/
structure IsSettled (op : Operator) (l r : Expr α) : Prop where
  unfoldable : ¬(l.isConstant ∧ r.isConstant)
  right (hop : op = .add ∨ op = .multiply) : r.isConstant = false
  chain (hop : op = .add ∨ op = .multiply) : r.leadsWithConstant op = false

end Expr

mutual

/-- A tree has no constant variables, its operators are settled, and no call in it can be worked out
in advance. -/
def Expr.IsNormal {α : Type} [Arithmetic α] (s : Store α) : Expr α → Prop
  | .constant _ => True
  | .variable v => s.isConstant v = false
  | .binary op l r _ => l.IsNormal s ∧ r.IsNormal s ∧ IsSettled op l r
  | .call f arguments =>
    Expr.AllNormal s arguments ∧ ¬(f.deterministic ∧ arguments.all isConstant)

/-- Several trees are normal forms. -/
def Expr.AllNormal {α : Type} [Arithmetic α] (s : Store α) : List (Expr α) → Prop
  | [] => True
  | e :: es => e.IsNormal s ∧ Expr.AllNormal s es

end

namespace Expr

/-! ### Operators -/

section Settled

variable {α : Type} {op : Operator} {l r : Expr α}

theorem isConstant_of_ne (h : ∀ x, l ≠ constant x) : l.isConstant = false := by
  cases l with
  | constant x => exact absurd rfl (h x)
  | _ => rfl

theorem IsSettled.of_not_commutative (hop : ¬op.isCommutative)
    (h : ¬(l.isConstant ∧ r.isConstant)) : IsSettled op l r := by
  rw [Operator.isCommutative_iff] at hop
  exact ⟨h, fun hop' => absurd hop' hop, fun hop' => absurd hop' hop⟩

theorem IsSettled.of_right (hr : r.isConstant = false) (hc : r.leadsWithConstant op = false) :
    IsSettled op l r := by
  refine ⟨?_, fun _ => hr, fun _ => hc⟩
  rintro ⟨-, h⟩
  rw [hr] at h
  cases h

/-- What stands behind a constant in a normal form neither is a constant nor begins with one. -/
theorem IsSettled.behind_constant {y : α} (hop : op.isCommutative)
    (h : IsSettled op (.constant y) r) : r.isConstant = false ∧ r.leadsWithConstant op = false :=
  have hop := Operator.isCommutative_iff.1 hop
  ⟨h.right hop, h.chain hop⟩

end Settled

variable {α : Type} [Arithmetic α] {s s' : Store α} {op : Operator} {l r left right e e' : Expr α}

/-- Regrouping settles an operator whose right operand is no constant. -/
theorem isNormal_regroup (hl : left.IsNormal s) (hr : right.IsNormal s)
    (hc : right.isConstant = false) (b : Bool) : (regroup op left right b).IsNormal s := by
  unfold regroup
  split
  · next op' y rest b' =>
    rw [IsNormal] at hr
    obtain ⟨-, hrest, hset⟩ := hr
    split
    · next h =>
      obtain ⟨hop, rfl⟩ : op.isCommutative ∧ op' = op := by simpa using h
      obtain ⟨hnc, hnl⟩ := hset.behind_constant hop
      split
      · next x =>
        rw [join, IsNormal]
        exact ⟨trivial, hrest, .of_right hnc hnl⟩
      · -- The operator moves to the right, and `left`, which it begins with, is no constant.
        next hleft =>
        rw [join, IsNormal, join, IsNormal]
        refine ⟨trivial, ⟨hl, hrest, .of_right hnc hnl⟩, .of_right rfl ?_⟩
        simp [leadsWithConstant, isConstant_of_ne hleft]
    · next h =>
      rw [IsNormal, IsNormal]
      refine ⟨hl, ⟨trivial, hrest, hset⟩, ?_⟩
      by_cases hop : op.isCommutative
      · have hne : op' ≠ op := by
          intro he
          simp [hop, he] at h
        exact .of_right hc (by simp [leadsWithConstant, hne])
      · exact .of_not_commutative hop fun h => by simp [hc] at h
  · next hother =>
    rw [IsNormal]
    refine ⟨hl, hr, .of_right hc ?_⟩
    cases right with
    | binary op' l' r' b' =>
      cases l' with
      | constant y => exact absurd rfl (hother op' y r' b')
      | _ => simp [leadsWithConstant, isConstant]
    | _ => rfl

/-- Gathering operands in normal form gives a normal form. -/
theorem isNormal_gather (hl : l.IsNormal s) (hr : r.IsNormal s) (b : Bool) :
    (gather op l r b).IsNormal s := by
  unfold gather
  split
  · rw [IsNormal]
    trivial
  · next y hconst =>
    have hlc := isConstant_of_ne hconst
    split
    · exact isNormal_regroup hr hl hlc b
    · next hop =>
      rw [IsNormal]
      exact ⟨hl, hr, .of_not_commutative hop fun h => by simp [hlc] at h⟩
  · next hconst _ => exact isNormal_regroup hl hr (isConstant_of_ne hconst) b

/-- A settled operator is left as it is. -/
theorem gather_of_isSettled (h : IsSettled op l r) (b : Bool) :
    gather op l r b = .binary op l r b := by
  have hregroup : regroup op l r b = .binary op l r b := by
    unfold regroup
    split
    · next op' y rest b' =>
      split
      · next hop =>
        obtain ⟨hop, rfl⟩ : op.isCommutative ∧ op' = op := by simpa using hop
        have hchain := h.chain (Operator.isCommutative_iff.1 hop)
        simp [leadsWithConstant, isConstant] at hchain
      · rfl
    · rfl
  unfold gather
  split
  · exact absurd ⟨rfl, rfl⟩ h.unfoldable
  · split
    · next hop =>
      have hright := h.right (Operator.isCommutative_iff.1 hop)
      cases hright
    · rfl
  · exact hregroup

/-! ### Trees -/

mutual

/-- A tree stays in normal form as long as no variable becomes a constant. -/
theorem IsNormal.mono (hs : ∀ v, s'.isConstant v → s.isConstant v) :
    ∀ {e : Expr α}, e.IsNormal s → e.IsNormal s'
  | .constant x, _ => by
    rw [IsNormal]
    trivial
  | .variable v, h => by
    rw [IsNormal] at h ⊢
    cases hv : s'.isConstant v with
    | false => rfl
    | true => exact (hs v hv).symm.trans h
  | .binary op l r b, h => by
    rw [IsNormal] at h ⊢
    exact ⟨h.1.mono hs, h.2.1.mono hs, h.2.2⟩
  | .call f arguments, h => by
    rw [IsNormal] at h ⊢
    exact ⟨h.1.mono hs, h.2⟩

theorem AllNormal.mono (hs : ∀ v, s'.isConstant v → s.isConstant v) :
    ∀ {es : List (Expr α)}, AllNormal s es → AllNormal s' es
  | [], _ => by
    rw [AllNormal]
    trivial
  | e :: es, h => by
    rw [AllNormal] at h ⊢
    exact ⟨h.1.mono hs, h.2.mono hs⟩

end

mutual

/-- A normal form is simplified to itself, and no function is entered for it. -/
theorem simplify_of_isNormal : ∀ {e : Expr α}, e.IsNormal s → e.simplify s = pure e
  | .constant x, _ => by rw [simplify]
  | .variable v, h => by
    rw [IsNormal] at h
    rw [simplify, h]
    rfl
  | .binary op l r b, h => by
    rw [IsNormal] at h
    obtain ⟨hl, hr, hset⟩ := h
    rw [simplify, simplify_of_isNormal hl, simplify_of_isNormal hr, pure_bind, pure_bind,
      gather_of_isSettled hset]
  | .call f arguments, h => by
    rw [IsNormal] at h
    obtain ⟨hargs, hcall⟩ := h
    have hfold : (f.deterministic && arguments.all isConstant) = false := by
      rw [← Bool.not_eq_true, Bool.and_eq_true]
      exact hcall
    rw [simplify, simplifyAll_of_allNormal hargs, pure_bind, hfold]
    rfl

theorem simplifyAll_of_allNormal :
    ∀ {es : List (Expr α)}, AllNormal s es → simplifyAll s es = pure es
  | [], _ => by rw [simplifyAll]
  | e :: es, h => by
    rw [AllNormal] at h
    rw [simplifyAll, simplify_of_isNormal h.1, simplifyAll_of_allNormal h.2, pure_bind, pure_bind]

end

mutual

theorem isNormal_simplified :
    ∀ (e : Expr α) {e' : Expr α}, (e.simplify s).outcome = .ok e' → e'.IsNormal s
  | .constant x, e', h => by
    rw [simplify] at h
    obtain rfl := Except.ok.inj h
    rw [IsNormal]
    trivial
  | .variable v, e', h => by
    rw [simplify] at h
    obtain rfl := Except.ok.inj h
    by_cases hv : s.isConstant v
    · rw [if_pos hv, IsNormal]
      trivial
    · rw [if_neg hv, IsNormal]
      simpa using hv
  | .binary op l r b, e', h => by
    obtain ⟨l', r', hl, hr, rfl⟩ := exists_of_simplify_binary h
    exact isNormal_gather (isNormal_simplified l hl) (isNormal_simplified r hr) b
  | .call f arguments, e', h => by
    rw [simplify] at h
    obtain ⟨arguments', hargs, h⟩ := Run.outcome_bind_eq_ok.1 h
    have ih := allNormal_simplified arguments hargs
    split at h
    · obtain ⟨x, -, h⟩ := Run.outcome_bind_eq_ok.1 h
      obtain rfl := Except.ok.inj h
      rw [IsNormal]
      trivial
    · next hfold =>
      obtain rfl := Except.ok.inj h
      rw [IsNormal]
      exact ⟨ih, by simpa using hfold⟩

theorem allNormal_simplified :
    ∀ (es : List (Expr α)) {es' : List (Expr α)},
      (simplifyAll s es).outcome = .ok es' → AllNormal s es'
  | [], es', h => by
    rw [simplifyAll] at h
    obtain rfl := Except.ok.inj h
    rw [AllNormal]
    trivial
  | e :: es, es', h => by
    rw [simplifyAll] at h
    obtain ⟨e', he, h⟩ := Run.outcome_bind_eq_ok.1 h
    obtain ⟨es'', hes, h⟩ := Run.outcome_bind_eq_ok.1 h
    obtain rfl := Except.ok.inj h
    rw [AllNormal]
    exact ⟨isNormal_simplified e he, allNormal_simplified es hes⟩

end

/-- What is simplified is in normal form, and as long as no variable becomes a constant it is
simplified to itself. -/
theorem isNormal_of_simplify (h : (e.simplify s).outcome = .ok e')
    (hs : ∀ v, s'.isConstant v → s.isConstant v) : e'.IsNormal s ∧ e'.simplify s' = pure e' := by
  have hnormal := isNormal_simplified e h
  exact ⟨hnormal, simplify_of_isNormal (hnormal.mono hs)⟩

/-- A chain around a constant variable, a call that is worked out in advance and one that is not. -/
theorem isNormal_of_simplify_chains :
    let size : Variable := ⟨"size", 0⟩
    let x : Variable := ⟨"x", 1⟩
    let store : Store ℚ := ⟨#[⟨2, true⟩, ⟨7, false⟩], 0⟩
    let dice : Function ℚ := ⟨"dice", .unary id, false, 0⟩
    let e : Expr ℚ := .binary .add
      (.binary .add (.binary .multiply (.variable x) (.variable size) true)
        (.call absolute [.constant (-3)]) true)
      (.binary .add (.call dice [.variable size]) (.constant 4) true) false
    ∃ e', (e.simplify store).outcome = .ok e' ∧
      e'.text = "(4 + ((3 + (2 * x)) + dice(2)))" ∧
      (∀ v, (store.write x 1).isConstant v → store.isConstant v) ∧
      e'.IsNormal store ∧ e'.simplify (store.write x 1) = pure e' := by
  intro size x store dice e
  have htext : (e.simplify store).outcome.toOption.map Expr.text =
      some "(4 + ((3 + (2 * x)) + dice(2)))" := by
    decide +kernel
  have hs : ∀ v, (store.write x 1).isConstant v → store.isConstant v := by
    rintro ⟨name, _ | _ | i⟩ hv <;> exact hv
  cases h : (e.simplify store).outcome with
  | error => simp [h, Except.toOption] at htext
  | ok e' =>
    exact ⟨e', rfl, by simpa [h, Except.toOption] using htext, hs, isNormal_of_simplify h hs⟩

/-! ### Rounds of rewriting -/

/-- What one round of rewriting makes of an operator: it is done with, or it has been regrouped and
is to be simplified again. -/
inductive Round (α : Type) where
  | done (e : Expr α)
  | again (e : Expr α)

/-- The tree that a round comes to, whether it is done with or not. -/
def Round.tree : Round α → Expr α
  | done e => e
  | again e => e

/-- An operator of which the right operand may begin with a constant. If that is an operator of the
same kind, the constant is combined with a constant on the left or else moved outward. -/
def rotate (op : Operator) (l r : Expr α) (isSealed : Bool) : Round α :=
  match r with
  | .binary op' (.constant y) rest _ =>
    if op.isCommutative && op' == op then
      match l with
      | .constant x => .again (join op (.constant (Arithmetic.apply op x y)) rest)
      | _ => .again (join op (.constant y) (join op l rest))
    else
      .done (.binary op l r isSealed)
  | _ => .done (.binary op l r isSealed)

/-- One round of rewriting an operator between simplified operands. Two constants are folded, and a
constant on the right of a sum or a product changes places with the left operand. -/
def round (op : Operator) (l r : Expr α) (isSealed : Bool) : Round α :=
  match l.constant?, r.constant? with
  | some x, some y => .done (.constant (Arithmetic.apply op x y))
  | _, _ =>
    if op.isCommutative && r.isConstant then
      rotate op r l isSealed
    else
      rotate op l r isSealed

theorem tree_rotate (op : Operator) (l r : Expr α) (b : Bool) :
    (rotate op l r b).tree = regroup op l r b := by
  unfold rotate
  split
  · rw [regroup.eq_def]
    dsimp only
    split
    · cases l <;> rfl
    · rfl
  · next hr =>
    rw [regroup.eq_def]
    split
    · exact absurd rfl (hr _ _ _ _)
    · rfl

theorem tree_round (op : Operator) (l r : Expr α) (b : Bool) :
    (round op l r b).tree = gather op l r b := by
  have hleft {e : Expr α} (h : ∀ x, e ≠ constant x) : e.constant? = none := by
    cases e with
    | constant x => exact absurd rfl (h x)
    | _ => rfl
  unfold gather
  split
  · rfl
  · next y hl =>
    rw [round, hleft hl]
    by_cases hop : op.isCommutative
    · simp [hop, isConstant, tree_rotate]
    · simp [hop, rotate, Round.tree]
  · next hr _ => simp [round, hleft hr, isConstant_of_ne hr, tree_rotate]

/-- Simplifying an operator means to rewrite it in rounds until it is done with. A regrouped
operator needs no second round, so that one is enough. -/
theorem simplify_binary_eq_round (s : Store α) (op : Operator) (l r : Expr α) (b : Bool) :
    (binary op l r b).simplify s = l.simplify s >>= fun l => r.simplify s >>= fun r =>
      match round op l r b with
      | .done e => pure e
      | .again e => e.simplify s := by
  rw [simplify]
  refine Run.bind_congr_ok fun l' hl => Run.bind_congr_ok fun r' hr => ?_
  have htree := tree_round op l' r' b
  have hnormal : (gather op l' r' b).IsNormal s :=
    isNormal_gather (isNormal_simplified l hl) (isNormal_simplified r hr) b
  rw [← htree] at hnormal ⊢
  generalize round op l' r' b = rewritten at hnormal ⊢
  cases rewritten with
  | done e => rfl
  | again e => exact (simplify_of_isNormal hnormal).symm

end Expr

end Reckon
