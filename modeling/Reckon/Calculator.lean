import Reckon.Builtins
import Reckon.Compile
import Reckon.Expr.Dependencies

/-!
# Calculators

A `Calculator` keeps the standard functions in an outer frame and the names of its host in an inner
one. The host compiles a formula once and may then go on changing its variables: the formula refers
to their cells and is evaluated with the values that they have at that time.

## Main definitions

* `Formula` — a compiled formula with its source and its dependencies.
* `Calculator.assign`, `Calculator.defineConstant`, `Calculator.declare` — binding names.
* `Calculator.compile`, `Calculator.evaluate` — compiling formulas.
-/

namespace Reckon

/-- A compiled formula. -/
structure Formula where
  source : String
  expr : Expr Float
  dependencies : Dependencies

namespace Formula

/-- Whether the formula is a single number. -/
def isConstant (f : Formula) : Bool := f.expr.isConstant

/-- The value of the formula when its variables have the values of a store. -/
def evaluate (f : Formula) (s : Store Float) : Run Float := f.expr.evaluate s

end Formula

/-- The names of a host and their values. -/
structure Calculator where
  workspace : Workspace Float
  settings : Settings

namespace Calculator

/-- A calculator with the standard functions and nothing else. -/
def new (settings : Settings) (time : Float) : Calculator :=
  { workspace := (Builtins.bind (.empty time)).push, settings }

/-- The variable that a name is bound to. -/
def findVariable? (c : Calculator) (name : String) : Option Variable :=
  c.workspace.scope.findVariable? name

/-- Gives a name a value, and binds it to a variable if it is not bound yet. A name that is bound to
a constant cannot be given a value. -/
def assign (c : Calculator) (name : String) (x : Float) : Except Error Calculator :=
  if (c.findVariable? name).any c.workspace.store.isConstant then
    .error (.constantAssigned name)
  else
    let (v, w) := c.workspace.createVariable name
    .ok { c with workspace := w.write v x }

/-- Binds a name to a constant. -/
def defineConstant (c : Calculator) (name : String) (x : Float) : Variable × Calculator :=
  let (v, workspace) := c.workspace.createConstant name x
  (v, { c with workspace })

/-- Binds a name to a variable; one that is bound already keeps its value. -/
def declare (c : Calculator) (name : String) : Variable × Calculator :=
  let (v, workspace) := c.workspace.createVariable name
  (v, { c with workspace })

/-- A formula, compiled with the names that are bound now. -/
def compile (c : Calculator) (source : String) : Run Formula × Calculator :=
  let (run, workspace) := c.workspace.compile c.settings (.ofString source)
  let formula : Run Formula := do
    let expr ← run
    pure ⟨source, expr, .ofExpr expr⟩
  (formula, { c with workspace })

/-- The value of a formula that is compiled for this one use. -/
def evaluate (c : Calculator) (source : String) : Run Float × Calculator :=
  let (formula, c) := c.compile source
  let value : Run Float := do
    let f ← formula
    f.evaluate c.workspace.store
  (value, c)

end Calculator

end Reckon
