import Reckon.Expr.Simplify

/-!
# Trees apart from their seals

Seals say where a chain of operators ends while a formula is being read. They have no part in what a
tree evaluates to, nor in how it is simplified.

## Main definitions

* `Expr.withSeals` — a tree with all its operators sealed, or none.
* `Expr.unsealed` — a tree apart from its seals.

## Main statements

* `Expr.simplify_unsealed` — simplification and taking the seals off can be done in either order.
-/

namespace Reckon

variable {α : Type}

mutual

/-- A tree with all its operators sealed, or with none. -/
def Expr.withSeals (b : Bool) : Expr α → Expr α
  | .constant x => .constant x
  | .variable v => .variable v
  | .binary op l r _ => .binary op (l.withSeals b) (r.withSeals b) b
  | .call f arguments => .call f (Expr.allWithSeals b arguments)

/-- Several trees with all their operators sealed, or with none. -/
def Expr.allWithSeals (b : Bool) : List (Expr α) → List (Expr α)
  | [] => []
  | e :: es => e.withSeals b :: Expr.allWithSeals b es

end

namespace Expr

/-- A tree apart from its seals. -/
abbrev unsealed (e : Expr α) : Expr α := e.withSeals false

theorem allWithSeals_eq_map (b : Bool) (es : List (Expr α)) :
    allWithSeals b es = es.map (withSeals b) := by
  induction es with
  | nil => rw [allWithSeals, List.map_nil]
  | cons e es ih => rw [allWithSeals, List.map_cons, ih]

mutual

/-- The seals that are set last are those that count. -/
theorem withSeals_withSeals (b c : Bool) : ∀ e : Expr α, (e.withSeals b).withSeals c = e.withSeals c
  | .constant _ => by simp only [withSeals]
  | .variable _ => by simp only [withSeals]
  | .binary _ l r _ => by
    simp only [withSeals, withSeals_withSeals b c l, withSeals_withSeals b c r]
  | .call _ arguments => by simp only [withSeals, allWithSeals_allWithSeals b c arguments]

theorem allWithSeals_allWithSeals (b c : Bool) :
    ∀ es : List (Expr α), allWithSeals c (allWithSeals b es) = allWithSeals c es
  | [] => by simp only [allWithSeals]
  | e :: es => by
    simp only [allWithSeals, withSeals_withSeals b c e, allWithSeals_allWithSeals b c es]

end

@[simp] theorem unsealed_withSeals (b : Bool) (e : Expr α) : (e.withSeals b).unsealed = e.unsealed :=
  withSeals_withSeals b false e

@[simp] theorem isConstant_withSeals (b : Bool) (e : Expr α) :
    (e.withSeals b).isConstant = e.isConstant := by
  cases e <;> rw [withSeals] <;> rfl

variable [Arithmetic α]

/-- Regrouping goes by the operators and the constants alone. -/
theorem regroup_unsealed (op : Operator) (l r : Expr α) (b : Bool) :
    regroup op l.unsealed r.unsealed false = (regroup op l r b).unsealed := by
  cases r with
  | binary op' x rest b' =>
    cases x with
    | constant y =>
      by_cases h : op.isCommutative && op' == op
      · cases l <;> simp [regroup, withSeals, join, h]
      · simp [regroup, withSeals, h]
    | _ => simp [regroup, withSeals]
  | _ => simp [regroup, withSeals]

theorem gather_unsealed (op : Operator) (l r : Expr α) (b : Bool) :
    gather op l.unsealed r.unsealed false = (gather op l r b).unsealed := by
  have hregroup := regroup_unsealed op l r b
  cases r with
  | constant y =>
    have hswap := regroup_unsealed op (.constant y) l b
    cases l with
    | constant x => simp [gather, withSeals]
    | _ =>
      by_cases h : op.isCommutative
      · simpa [gather, withSeals, h] using hswap
      · simp [gather, withSeals, h]
  | _ => cases l <;> simpa [gather, withSeals] using hregroup

/-- Constants evaluate to themselves, with or without seals. -/
theorem evaluateAll_unsealed_of_isConstant (s : Store α) {es : List (Expr α)}
    (h : es.all isConstant) : evaluateAll s (allWithSeals false es) = evaluateAll s es := by
  rw [evaluateAll_eq_map, evaluateAll_eq_map, allWithSeals_eq_map, List.map_map]
  refine List.map_congr_left fun e he => ?_
  cases e with
  | constant x => simp [withSeals]
  | _ => simpa [isConstant] using List.all_eq_true.1 h _ he

mutual

/-- A tree without seals is simplified as the tree with seals is. -/
theorem simplify_unsealed (s : Store α) :
    ∀ e : Expr α, e.unsealed.simplify s = unsealed <$> e.simplify s
  | .constant x => by simp [withSeals, simplify]
  | .variable v => by
    simp only [withSeals, simplify, map_pure]
    split <;> simp only [withSeals]
  | .binary op l r b => by
    rw [unsealed, withSeals, simplify, simplify, simplify_unsealed s l, simplify_unsealed s r]
    simp only [map_bind, map_pure, bind_map_left, gather_unsealed op _ _ b]
  | .call f arguments => by
    rw [unsealed, withSeals, simplify, simplify, simplifyAll_unsealed s arguments]
    simp only [map_bind, bind_map_left]
    refine bind_congr fun es => ?_
    have hall : (allWithSeals false es).all isConstant = es.all isConstant := by
      simp [allWithSeals_eq_map, Function.comp_def]
    rw [hall]
    split
    · next h =>
      have hconst : es.all isConstant := by simp_all
      rw [evaluateAll_unsealed_of_isConstant s hconst]
      simp only [map_bind, map_pure, withSeals]
    · simp only [map_pure, withSeals]

theorem simplifyAll_unsealed (s : Store α) :
    ∀ es : List (Expr α),
      simplifyAll s (allWithSeals false es) = allWithSeals false <$> simplifyAll s es
  | [] => by simp [allWithSeals, simplifyAll]
  | e :: es => by
    rw [allWithSeals, simplifyAll, simplifyAll, simplify_unsealed s e, simplifyAll_unsealed s es]
    simp only [map_bind, map_pure, bind_map_left, allWithSeals]

end

end Expr

end Reckon
