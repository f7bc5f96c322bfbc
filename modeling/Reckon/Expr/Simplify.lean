import Reckon.Expr.Evaluate

/-!
# Simplification

A tree is simplified from the leaves up. Constant variables are replaced by their values; an
operator between two constants and a call of a deterministic function with constant arguments are
replaced by what they evaluate to. In chains of one commutative operator, constants are moved to the
front: a constant right operand changes places with the left one, and a constant at the front of the
right operand is combined with a constant left operand or else moved in front of it.

A call is worked out during simplification only in the case above, so that an error in it is an
error of the simplification.

## Main definitions

* `Expr.gather` — an operator between simplified operands.
* `Expr.simplify` — a simplified tree.
-/

namespace Reckon

variable {α : Type} [Arithmetic α]

namespace Expr

/-- An operator between an operand and one that is not constant. A constant at the front of the
right operand, if that is a chain of the same commutative operator, is brought to the front of the
whole. -/
def regroup (op : Operator) (left right : Expr α) (isSealed : Bool) : Expr α :=
  match right with
  | .binary op' (.constant y) rest _ =>
    if op.isCommutative && op' == op then
      match left with
      | .constant x => join op (.constant (Arithmetic.apply op x y)) rest
      | _ => join op (.constant y) (join op left rest)
    else
      .binary op left right isSealed
  | _ => .binary op left right isSealed

/-- An operator between simplified operands, simplified itself. -/
def gather (op : Operator) (left right : Expr α) (isSealed : Bool) : Expr α :=
  match left, right with
  | .constant x, .constant y => .constant (Arithmetic.apply op x y)
  | left, .constant y =>
    if op.isCommutative then
      regroup op (.constant y) left isSealed
    else
      .binary op left (.constant y) isSealed
  | left, right => regroup op left right isSealed

end Expr

mutual

/-- A simplified tree with the same value. -/
def Expr.simplify (s : Store α) : Expr α → Run (Expr α)
  | .constant x => pure (.constant x)
  | .variable v => pure (if s.isConstant v then .constant (s.value v) else .variable v)
  | .binary op l r isSealed => do
    let l ← l.simplify s
    let r ← r.simplify s
    pure (Expr.gather op l r isSealed)
  | .call f arguments => do
    let arguments ← Expr.simplifyAll s arguments
    if f.deterministic && arguments.all Expr.isConstant then
      let x ← f.call s.time (Expr.evaluateAll s arguments)
      pure (.constant x)
    else
      pure (.call f arguments)

/-- Several trees simplified in order. -/
def Expr.simplifyAll (s : Store α) : List (Expr α) → Run (List (Expr α))
  | [] => pure []
  | e :: es => do
    let e ← e.simplify s
    let es ← Expr.simplifyAll s es
    pure (e :: es)

end

end Reckon
