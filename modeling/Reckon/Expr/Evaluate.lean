import Reckon.Expr.Basic

/-!
# Evaluation

The value of a tree when its variables have the values of a store. Both operands of an operator are
always evaluated, the left one first. Which arguments of a call are evaluated is up to the function.
-/

namespace Reckon

variable {α : Type} [Arithmetic α]

mutual

/-- The value of a tree. -/
def Expr.evaluate (s : Store α) : Expr α → Run α
  | .constant x => pure x
  | .variable v => pure (s.value v)
  | .binary op l r _ => do
    let x ← l.evaluate s
    let y ← r.evaluate s
    pure (Arithmetic.apply op x y)
  | .call f arguments => f.call s.time (Expr.evaluateAll s arguments)

/-- The evaluations of several trees, each on its own. -/
def Expr.evaluateAll (s : Store α) : List (Expr α) → List (Run α)
  | [] => []
  | e :: es => e.evaluate s :: Expr.evaluateAll s es

end

theorem Expr.evaluateAll_eq_map (s : Store α) (es : List (Expr α)) :
    Expr.evaluateAll s es = es.map (·.evaluate s) := by
  induction es with
  | nil => simp [evaluateAll]
  | cons e es ih => simp [evaluateAll, ih]

end Reckon
