import Reckon.Expr.Basic

/-!
# Chains of operators

A chain such as `a - b + c` is read from the right: first `b + c`, and then `a -` is put in front of
it. `Expr.graft` puts an operand and an operator in front of a tree in such a way that the chain
becomes nested to the left: they are attached to the first operand of the chain, which is found by
going down the left operands for as long as the nodes are unsealed and of the operator's rank.
-/

namespace Reckon.Expr

variable {α : Type}

/-- Puts an operand and an operator in front of the chain that a tree begins with. -/
def graft (left : Expr α) (op : Operator) : Expr α → Expr α
  | binary op' l r false =>
    if op'.rank = op.rank then
      binary op' (graft left op l) r false
    else
      join op left (join op' l r)
  | e => join op left e

end Reckon.Expr
