import Reckon.Expr.Basic
import Reckon.Text.Names

/-!
# Dependencies

The names of the variables that a tree reads and of the functions that it calls, in whatever part of
it they occur.
-/

namespace Reckon

mutual

/-- The names of the variables in a tree, from left to right. -/
def Expr.variableNames {α : Type} : Expr α → List String
  | .constant _ => []
  | .variable v => [v.name]
  | .binary _ l r _ => l.variableNames ++ r.variableNames
  | .call _ arguments => Expr.variableNamesOfAll arguments

/-- The names of the variables in several trees. -/
def Expr.variableNamesOfAll {α : Type} : List (Expr α) → List String
  | [] => []
  | e :: es => e.variableNames ++ Expr.variableNamesOfAll es

end

mutual

/-- The names of the functions in a tree, from left to right. -/
def Expr.functionNames {α : Type} : Expr α → List String
  | .constant _ => []
  | .variable _ => []
  | .binary _ l r _ => l.functionNames ++ r.functionNames
  | .call f arguments => f.name :: Expr.functionNamesOfAll arguments

/-- The names of the functions in several trees. -/
def Expr.functionNamesOfAll {α : Type} : List (Expr α) → List String
  | [] => []
  | e :: es => e.functionNames ++ Expr.functionNamesOfAll es

end

/-- The names that a formula depends on, in order and each once. -/
structure Dependencies where
  variableNames : List String
  functionNames : List String
  deriving DecidableEq, Inhabited

namespace Dependencies

/-- The names that a tree depends on. -/
def ofExpr {α : Type} (e : Expr α) : Dependencies :=
  ⟨sortedNames e.variableNames, sortedNames e.functionNames⟩

/-- Whether there are no dependencies at all. -/
def isEmpty (d : Dependencies) : Bool := d.variableNames.isEmpty && d.functionNames.isEmpty

/-- Whether a variable of the given name is read. -/
def reads (d : Dependencies) (name : String) : Bool := d.variableNames.contains name

/-- Whether a function of the given name is called. -/
def calls (d : Dependencies) (name : String) : Bool := d.functionNames.contains name

end Dependencies

end Reckon
