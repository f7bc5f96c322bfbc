import Reckon.Function
import Reckon.Store
import Reckon.Table
import Reckon.Text.Names

/-!
# Scopes

A `Scope` is a stack of frames, each with a table of variables and a table of functions. A name is
looked up in the innermost frame first and then in the frames around it. Names are bound and removed
in the innermost frame only, so that a removal makes an outer binding visible again.

## Main definitions

* `Scope.findVariable?`, `Scope.findFunction?` — looking names up.
* `Scope.localNames`, `Scope.names` — the names that are bound.
-/

namespace Reckon

/-- The names that are bound on one level. -/
structure Frame (α : Type) where
  variableTable : Table Variable := {}
  functionTable : Table (Function α) := {}

/-- The names bound in a frame, in order. -/
def Frame.names {α : Type} (f : Frame α) : List String :=
  sortedNames (f.variableTable.names ++ f.functionTable.names)

/-- The frame in which names are bound, and the frames around it from the inside out. -/
structure Scope (α : Type) where
  inner : Frame α := {}
  outer : List (Frame α) := []

namespace Scope

variable {α : Type}

/-- All frames from the inside out. -/
def frames (s : Scope α) : List (Frame α) := s.inner :: s.outer

/-- The variable that a name is bound to in the innermost frame. -/
def localVariable? (s : Scope α) (name : String) : Option Variable :=
  s.inner.variableTable.find? name

/-- The function that a name is bound to in the innermost frame. -/
def localFunction? (s : Scope α) (name : String) : Option (Function α) :=
  s.inner.functionTable.find? name

/-- The variable that a name is bound to. -/
def findVariable? (s : Scope α) (name : String) : Option Variable :=
  s.frames.findSome? (·.variableTable.find? name)

/-- The function that a name is bound to. -/
def findFunction? (s : Scope α) (name : String) : Option (Function α) :=
  s.frames.findSome? (·.functionTable.find? name)

/-- Opens a new innermost frame. -/
def push (s : Scope α) : Scope α := ⟨{}, s.frames⟩

/-- Drops the innermost frame, unless it is the only one. -/
def pop? (s : Scope α) : Option (Scope α) :=
  match s.outer with
  | f :: fs => some ⟨f, fs⟩
  | [] => none

/-- Binds a name to a variable. -/
def bindVariable (s : Scope α) (name : String) (v : Variable) : Scope α :=
  { s with inner := { s.inner with variableTable := s.inner.variableTable.insert name v } }

/-- Binds a name to a function. -/
def bindFunction (s : Scope α) (name : String) (f : Function α) : Scope α :=
  { s with inner := { s.inner with functionTable := s.inner.functionTable.insert name f } }

/-- Removes the variable that a name is bound to in the innermost frame. -/
def removeVariable (s : Scope α) (name : String) : Scope α :=
  { s with inner := { s.inner with variableTable := s.inner.variableTable.erase name } }

/-- Removes the function that a name is bound to in the innermost frame. -/
def removeFunction (s : Scope α) (name : String) : Scope α :=
  { s with inner := { s.inner with functionTable := s.inner.functionTable.erase name } }

/-- The names bound in the innermost frame, in order. -/
def localNames (s : Scope α) : List String := s.inner.names

/-- The names bound in each frame in order, from the inside out. -/
def names (s : Scope α) : List String := s.frames.flatMap Frame.names

/-- All variables, from the inside out. -/
def boundVariables (s : Scope α) : List Variable := s.frames.flatMap (·.variableTable.values)

/-- All functions, from the inside out. -/
def boundFunctions (s : Scope α) : List (Function α) :=
  s.frames.flatMap (·.functionTable.values)

end Scope

end Reckon
