import Reckon.Scope

/-!
# Workspaces

A `Workspace` is what formulas are compiled against: a scope and the store that its variables refer
to. A name that is bound in the innermost frame keeps its cell when it is bound again, so that
formulas that refer to the cell see the new value; and a function that is bound stays bound.
-/

namespace Reckon

/-- A scope and the cells of its variables. -/
structure Workspace (α : Type) where
  store : Store α
  scope : Scope α := {}

namespace Workspace

variable {α : Type} [Arithmetic α]

/-- A workspace in which no name is bound. -/
def empty (time : α) : Workspace α := { store := .empty time }

/-- Binds a name to a constant. A variable that the innermost frame has under this name already is
frozen at the value. -/
def createConstant (w : Workspace α) (name : String) (x : α) : Variable × Workspace α :=
  match w.scope.localVariable? name with
  | some v => (v, { w with store := w.store.freeze v x })
  | none =>
    let (v, store) := w.store.add name ⟨x, true⟩
    (v, { store, scope := w.scope.bindVariable name v })

/-- Binds a name to a variable, which is zero if the innermost frame does not have it yet. -/
def createVariable (w : Workspace α) (name : String) : Variable × Workspace α :=
  match w.scope.localVariable? name with
  | some v => (v, w)
  | none =>
    let (v, store) := w.store.add name ⟨Arithmetic.zero, false⟩
    (v, { store, scope := w.scope.bindVariable name v })

/-- Binds a name to a function, unless the innermost frame has one under this name; the result is
the function that the name is bound to afterwards. -/
def createFunction (w : Workspace α) (name : String) (f : Function α) :
    Function α × Workspace α :=
  match w.scope.localFunction? name with
  | some g => (g, w)
  | none => (f, { w with scope := w.scope.bindFunction name f })

/-- Removes a variable from the innermost frame. Its cell lives on. -/
def removeVariable (w : Workspace α) (name : String) : Option Variable × Workspace α :=
  (w.scope.localVariable? name, { w with scope := w.scope.removeVariable name })

/-- Removes a function from the innermost frame. -/
def removeFunction (w : Workspace α) (name : String) : Option (Function α) × Workspace α :=
  (w.scope.localFunction? name, { w with scope := w.scope.removeFunction name })

/-- Opens a new innermost frame. -/
def push (w : Workspace α) : Workspace α := { w with scope := w.scope.push }

/-- Drops the innermost frame, unless it is the only one. -/
def pop? (w : Workspace α) : Option (Workspace α) :=
  w.scope.pop?.map fun scope => { w with scope }

/-- Gives a variable a value. -/
def write (w : Workspace α) (v : Variable) (x : α) : Workspace α :=
  { w with store := w.store.write v x }

/-- Gives a variable a value and makes it a constant. -/
def freeze (w : Workspace α) (v : Variable) (x : α) : Workspace α :=
  { w with store := w.store.freeze v x }

end Workspace

end Reckon
