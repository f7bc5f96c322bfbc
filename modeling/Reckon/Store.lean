import Reckon.Number.Arithmetic

/-!
# Variables and their values

A `Variable` is a lasting reference to a cell of a `Store`. Names can be bound anew, but whoever
holds the variable goes on referring to the same cell, and sees every value that is written to it.
A cell may be frozen: it then counts as a constant, and formulas that are compiled afterwards take
its value in.

## Main definitions

* `Variable`, `Cell`, `Store` — references, what they refer to, and all cells together.
* `Store.write`, `Store.freeze`, `Store.add` — the operations that change a store.
* `Store.sameBinding` — when two variables are interchangeable in formulas.
-/

namespace Reckon

/-- A reference to a cell, with the name under which the cell was made. -/
structure Variable where
  name : String
  index : Nat
  deriving DecidableEq, Inhabited

/-- What a variable refers to. -/
structure Cell (α : Type) where
  value : α
  constant : Bool

/-- All cells, and the time of day, which some functions read. -/
structure Store (α : Type) where
  cells : Array (Cell α)
  time : α

namespace Store

variable {α : Type} [Arithmetic α]

/-- A store without cells. -/
def empty (time : α) : Store α := ⟨#[], time⟩

/-- The cell of a variable. -/
def cell (s : Store α) (v : Variable) : Cell α :=
  s.cells[v.index]?.getD ⟨Arithmetic.zero, false⟩

/-- The value of a variable. -/
def value (s : Store α) (v : Variable) : α := (s.cell v).value

/-- Whether a variable is a constant. -/
def isConstant (s : Store α) (v : Variable) : Bool := (s.cell v).constant

/-- Replaces the cell of a variable. -/
def put (s : Store α) (v : Variable) (c : Cell α) : Store α :=
  { s with cells := s.cells.setIfInBounds v.index c }

/-- Gives a variable a value. A constant stays one. -/
def write (s : Store α) (v : Variable) (x : α) : Store α := s.put v ⟨x, s.isConstant v⟩

/-- Gives a variable a value and makes it a constant. -/
def freeze (s : Store α) (v : Variable) (x : α) : Store α := s.put v ⟨x, true⟩

/-- A new cell, and the variable that refers to it. -/
def add (s : Store α) (name : String) (c : Cell α) : Variable × Store α :=
  (⟨name, s.cells.size⟩, { s with cells := s.cells.push c })

/-- A variable of its own that has another value but is otherwise like `v`. -/
def copy (s : Store α) (v : Variable) (x : α) : Variable × Store α :=
  s.add v.name ⟨x, s.isConstant v⟩

/-- Two variables are the same binding if they refer to one cell, or if both are constants with
equal values. -/
def sameBinding (s : Store α) (v w : Variable) : Bool :=
  v.index == w.index ||
    (s.isConstant v && s.isConstant w && Arithmetic.equal (s.value v) (s.value w))

/-- A variable is written as its name and its value. -/
def text [Numeral α] (s : Store α) (v : Variable) : String :=
  v.name ++ ": " ++ Numeral.text (s.value v)

/-- A new variable has the value that it was made with. -/
@[simp] theorem value_add (s : Store α) (name : String) (c : Cell α) :
    (s.add name c).2.value (s.add name c).1 = c.value := by
  simp [add, value, cell]

/-- A new variable is a constant if it was made as one. -/
@[simp] theorem isConstant_add (s : Store α) (name : String) (c : Cell α) :
    (s.add name c).2.isConstant (s.add name c).1 = c.constant := by
  simp [add, isConstant, cell]

/-- Writing to one variable does not change another. -/
theorem cell_put_of_ne {s : Store α} {v w : Variable} (c : Cell α) (h : v.index ≠ w.index) :
    (s.put v c).cell w = s.cell w := by
  simp [put, cell, h]

/-- Writing to a variable of the store is seen by everyone who refers to its cell. -/
theorem cell_put {s : Store α} {v w : Variable} (c : Cell α) (h : v.index = w.index)
    (hv : v.index < s.cells.size) : (s.put v c).cell w = c := by
  simp [put, cell, ← h, hv]

end Store

end Reckon
