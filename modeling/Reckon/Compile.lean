import Reckon.Expr.Simplify
import Reckon.Grammar
import Reckon.Workspace

/-!
# Compiling formulas

A formula is compiled in three steps: its source is cut into tokens, the tokens are read as a tree,
and the tree is simplified. Only then is it checked that no tokens are left over, so that of two
errors the one in the simplification comes first.

## Main definitions

* `Workspace.read` — the simplified tree of some tokens.
* `Workspace.compile` — the simplified tree of a source.
-/

namespace Reckon.Workspace

variable {α : Type} [Arithmetic α] [Numeral α]

/-- The tree that tokens are read as, and the tokens that it leaves. -/
def parse (w : Workspace α) (tokens : Tokens) : Except Error (Expr α × List Token) :=
  (Grammar.expression w.scope tokens.ending tokens.ahead).map fun p => (p.value, p.rest)

/-- Complains if there are tokens left over. -/
def finish (ending : Except Error Position) (rest : List Token) : Except Error Unit :=
  match rest with
  | [] => ending.map fun _ => ()
  | t :: _ => .error (.unexpectedToken t .endOfInput)

/-- The simplified tree of all the tokens. -/
def read (w : Workspace α) (tokens : Tokens) : Run (Expr α) := do
  let (e, rest) ← .ofExcept (w.parse tokens)
  let e ← e.simplify w.store
  .ofExcept (finish tokens.ending rest)
  pure e

/-- Binds the constants that have names of their own. -/
def bindNamed (w : Workspace α) : Workspace α :=
  let (_, w) := w.createConstant "tau" Numeral.tau
  let (_, w) := w.createConstant "e" Numeral.e
  w

/-- The simplified tree of a source. The named constants stay bound even if there is an error. -/
def compile (w : Workspace α) (settings : Settings) (source : Source) :
    Run (Expr α) × Workspace α :=
  let w := if settings.namedConstants then w.bindNamed else w
  (w.read (Lexer.ofSource settings source).tokens, w)

end Reckon.Workspace
