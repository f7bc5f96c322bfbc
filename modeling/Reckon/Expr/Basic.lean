import Reckon.Function
import Reckon.Store

/-!
# Expressions

The trees of formulas: constants, variables, operators and calls. An operator node may be sealed,
which says that it was written in brackets or as a negation, so that a chain of operators to its
left does not reach into it.

## Main definitions

* `Expr` — the trees.
* `Expr.text` — a tree written out with brackets around every operator.
-/

namespace Reckon

/-- The tree of a formula. -/
inductive Expr (α : Type) where
  | constant (x : α)
  | variable (v : Variable)
  | binary (op : Operator) (left right : Expr α) (isSealed : Bool)
  | call (f : Function α) (arguments : List (Expr α))

namespace Expr

variable {α : Type}

/-- Whether a tree is a single constant. -/
def isConstant : Expr α → Bool
  | constant _ => true
  | _ => false

/-- The value of a tree that is a single constant. -/
def constant? : Expr α → Option α
  | constant x => some x
  | _ => none

/-- The tree with its topmost node sealed, if that is an operator. -/
def sealTop : Expr α → Expr α
  | binary op l r _ => binary op l r true
  | e => e

/-- Operands between which an operator stands, and which may be reached into. -/
abbrev join (op : Operator) (left right : Expr α) : Expr α := binary op left right false

end Expr

mutual

/-- The characters of a tree: every operator has brackets around it and its operands. -/
def Expr.chars {α : Type} [Numeral α] : Expr α → List Char
  | .constant x => (Numeral.text x).toList
  | .variable v => v.name.toList
  | .binary op l r _ => '(' :: (l.chars ++ ' ' :: (op.symbol.toList ++ ' ' :: (r.chars ++ [')'])))
  | .call f arguments => f.name.toList ++ '(' :: (Expr.charsOfAll arguments ++ [')'])

/-- The characters of several trees with commas between them. -/
def Expr.charsOfAll {α : Type} [Numeral α] : List (Expr α) → List Char
  | [] => []
  | e :: es => e.chars ++ Expr.charsOfMore es

/-- The characters of several trees with a comma before each. -/
def Expr.charsOfMore {α : Type} [Numeral α] : List (Expr α) → List Char
  | [] => []
  | e :: es => ',' :: ' ' :: (e.chars ++ Expr.charsOfMore es)

end

/-- The written form of a tree. -/
def Expr.text {α : Type} [Numeral α] (e : Expr α) : String := String.ofList e.chars

mutual

/-- Whether two trees are taken for equal: seals do not count, variables are compared as bindings
and functions by name. -/
def Expr.same {α : Type} [Arithmetic α] (s : Store α) : Expr α → Expr α → Bool
  | .constant x, .constant y => Arithmetic.equal x y
  | .variable v, .variable w => s.sameBinding v w
  | .binary op l r _, .binary op' l' r' _ => op == op' && l.same s l' && r.same s r'
  | .call f arguments, .call g arguments' => f.same g && Expr.sameAll s arguments arguments'
  | _, _ => false

/-- Whether two lists of trees are equal one by one. -/
def Expr.sameAll {α : Type} [Arithmetic α] (s : Store α) : List (Expr α) → List (Expr α) → Bool
  | [], [] => true
  | e :: es, e' :: es' => e.same s e' && Expr.sameAll s es es'
  | _, _ => false

end

end Reckon
