import Reckon.Proofs.Reading

/-!
# What grafting keeps in place

A chain of operators is read from the right, and each operand with its operator is grafted onto the
chain that follows it. Whatever the two trees are, nothing is lost by that and nothing changes its
place: from left to right there are first the operands and the operators of the one tree, then the
new operator, and then those of the other tree. Only along the left spine of the second tree, and
there only at unsealed operators of the rank of the new one, does a node get another left operand.
All else is taken over as it is.

## Main definitions

* `Expr.inOrder` — the operands and operators of a tree from left to right.
* `Expr.IsPart` — a tree occurs in another one.
* `Expr.OnSpine` — a node is on the part of a left spine that is open to an operator.

## Main statements

* `Expr.inOrder_graft` — grafting keeps the order of operands and operators.
* `Expr.exists_spine` — a tree is an open spine on top of a tree that is not open.
* `Expr.graft_spine` — grafting puts a new node below an open spine.
* `Expr.graft_inPlace` — what grafting keeps, and what it changes.
-/

namespace Reckon

variable {α : Type}

/-- What stands in a tree beside the brackets: a constant, a variable or a whole call, and the
operators between them. -/
inductive Piece (α : Type) where
  | operand (e : Expr α)
  | operator (op : Operator)

namespace Expr

/-- The operands and the operators of a tree from left to right. -/
def inOrder : Expr α → List (Piece α)
  | binary op l r _ => l.inOrder ++ .operator op :: r.inOrder
  | e => [.operand e]

/-- Whether a tree is a sealed operator. -/
def isSealed : Expr α → Bool
  | binary _ _ _ b => b
  | _ => false

/-- Whether a tree is open to an operator: it is an unsealed operator of the same rank. -/
def isOpenTo (op : Operator) : Expr α → Bool
  | binary op' _ _ b => !b && op'.rank == op.rank
  | _ => false

/-- A tree occurs in another one, which may be the tree itself. -/
inductive IsPart : Expr α → Expr α → Prop
  | self {e} : IsPart e e
  | left {d op l r b} (h : IsPart d l) : IsPart d (.binary op l r b)
  | right {d op l r b} (h : IsPart d r) : IsPart d (.binary op l r b)
  | argument {d f es e} (he : e ∈ es) (h : IsPart d e) : IsPart d (.call f es)

/-- A node on the left spine of a tree, as far as the spine is open to an operator: the node and all
those above it are unsealed operators of its rank. -/
inductive OnSpine (op : Operator) : Expr α → Expr α → Prop
  | root {op' l r} (h : op'.rank = op.rank) : OnSpine op (.join op' l r) (.join op' l r)
  | under {d op' l r} (h : op'.rank = op.rank) (hd : OnSpine op d l) :
    OnSpine op d (.join op' l r)

variable {op op' : Operator} {d e l r left right first : Expr α} {b : Bool}

/-! ### Open spines -/

theorem isOpenTo_iff : e.isOpenTo op ↔ ∃ op' l r, e = join op' l r ∧ op'.rank = op.rank := by
  cases e with
  | binary op' l r b => cases b <;> simp [isOpenTo]
  | _ => simp [isOpenTo]

/-- At an open node grafting goes on in the left operand. -/
theorem graft_open (left : Expr α) (h : op'.rank = op.rank) :
    graft left op (join op' l r) = join op' (graft left op l) r := by
  rw [join, graft, if_pos h]

/-- Anywhere else the new operator is put on top. -/
theorem graft_closed (left : Expr α) (h : e.isOpenTo op = false) : graft left op e = join op left e := by
  unfold graft
  split
  · next op' l r => rw [if_neg (by simpa [isOpenTo] using h)]
  · rfl

/-- The last operator of a spine is at the root. -/
theorem nestLeft_concat (first : Expr α) (tail : List (Operator × Expr α)) (p : Operator × Expr α) :
    nestLeft first (tail ++ [p]) = join p.1 (nestLeft first tail) p.2 := by
  rw [nestLeft, List.foldl_append]
  rfl

/-- Every tree is an open spine on top of a tree that is not open. -/
theorem exists_spine (op : Operator) (e : Expr α) :
    ∃ first tail, e = nestLeft first tail ∧ (∀ p ∈ tail, p.1.rank = op.rank) ∧
      first.isOpenTo op = false := by
  cases hopen : e.isOpenTo op with
  | false => exact ⟨e, [], rfl, by simp, hopen⟩
  | true =>
    obtain ⟨op', l, r, rfl, hrank⟩ := isOpenTo_iff.1 hopen
    obtain ⟨first, tail, rfl, htail, hfirst⟩ := exists_spine op l
    refine ⟨first, tail ++ [(op', r)], (nestLeft_concat first tail (op', r)).symm, ?_, hfirst⟩
    intro p hp
    rcases List.mem_append.1 hp with hp | hp
    · exact htail p hp
    · obtain rfl := List.mem_singleton.1 hp
      exact hrank

/-- Grafting puts a new node below the open spine of a tree, with what was there as its right
operand. -/
theorem graft_spine (left : Expr α) {tail : List (Operator × Expr α)}
    (htail : ∀ p ∈ tail, p.1.rank = op.rank) (hfirst : first.isOpenTo op = false) :
    graft left op (nestLeft first tail) = nestLeft (join op left first) tail := by
  induction tail using List.reverseRecOn with
  | nil => exact graft_closed left hfirst
  | append_singleton tail p ih =>
    have hp : p.1.rank = op.rank := htail p (by simp)
    rw [nestLeft_concat, nestLeft_concat, graft_open left hp,
      ih fun q hq => htail q (List.mem_append_left _ hq)]

/-! ### What stays and what changes -/

theorem OnSpine.isOpenTo (h : OnSpine op d e) : d.isOpenTo op := by
  induction h with
  | root h => simpa [Expr.isOpenTo] using h
  | under _ _ ih => exact ih

theorem isOpenTo_of_isSealed (h : e.isSealed) : e.isOpenTo op = false := by
  cases e with
  | binary op' l r b => simp [Expr.isOpenTo, show b = true from h]
  | _ => rfl

/-- Grafting keeps the operands and the operators, and their order. -/
theorem inOrder_graft (left : Expr α) (op : Operator) (right : Expr α) :
    (graft left op right).inOrder = left.inOrder ++ .operator op :: right.inOrder := by
  cases hopen : right.isOpenTo op with
  | false => rw [graft_closed left hopen, inOrder]
  | true =>
    obtain ⟨op', l, r, rfl, hrank⟩ := isOpenTo_iff.1 hopen
    rw [graft_open left hrank, inOrder, inOrder_graft left op l, inOrder, List.append_assoc,
      List.cons_append]

theorem isPart_graft_left (left : Expr α) (op : Operator) (right : Expr α) :
    left.IsPart (graft left op right) := by
  cases hopen : right.isOpenTo op with
  | false =>
    rw [graft_closed left hopen]
    exact .left .self
  | true =>
    obtain ⟨op', l, r, rfl, hrank⟩ := isOpenTo_iff.1 hopen
    rw [graft_open left hrank]
    exact .left (isPart_graft_left left op l)

/-- Whatever is not on the open spine is taken over as it is. -/
theorem isPart_graft_right (left : Expr α) (op : Operator) {right : Expr α} (h : d.IsPart right) :
    d.IsPart (graft left op right) ∨ OnSpine op d right := by
  cases hopen : right.isOpenTo op with
  | false =>
    rw [graft_closed left hopen]
    exact .inl (.right h)
  | true =>
    obtain ⟨op', l, r, rfl, hrank⟩ := isOpenTo_iff.1 hopen
    rw [graft_open left hrank]
    cases h with
    | self => exact .inr (.root hrank)
    | left h => exact (isPart_graft_right left op h).imp .left (.under hrank)
    | right h => exact .inl (.right h)

/-- Grafting an operand onto a tree keeps all operands and operators in order. The operand and every
sealed part of the tree are found in the result, and so is every other part that is not on the open
spine. The nodes of the open spine keep their operators and their right operands; what stood below
them is, as it was, the right operand of the new operator, which has the new operand on its left. -/
theorem graft_inPlace (left : Expr α) (op : Operator) (right : Expr α) :
    let e := graft left op right
    e.inOrder = left.inOrder ++ .operator op :: right.inOrder ∧
      left.IsPart e ∧
      (∀ d : Expr α, d.IsPart right → d.isSealed → d.IsPart e) ∧
      (∀ d : Expr α, d.IsPart right → d.IsPart e ∨ OnSpine op d right) ∧
      ∃ first tail, right = nestLeft first tail ∧ e = nestLeft (join op left first) tail ∧
        (∀ p ∈ tail, p.1.rank = op.rank) ∧ first.isOpenTo op = false := by
  intro e
  have hpart (d : Expr α) (hd : d.IsPart right) : d.IsPart e ∨ OnSpine op d right :=
    isPart_graft_right left op hd
  refine ⟨inOrder_graft left op right, isPart_graft_left left op right, ?_, hpart, ?_⟩
  · intro d hd hsealed
    refine (hpart d hd).resolve_right fun hspine => ?_
    exact absurd hspine.isOpenTo (by simp [isOpenTo_of_isSealed hsealed])
  · obtain ⟨first, tail, hright, htail, hfirst⟩ := exists_spine op right
    refine ⟨first, tail, hright, ?_, htail, hfirst⟩
    rw [← graft_spine left htail hfirst, ← hright]

end Expr

end Reckon
