import Reckon.Error

/-!
# Runs

A `Run` is what an evaluation comes to: a result or an error, and a record of the function bodies
that were entered on the way. The record is kept when the run fails, so that it can be told of any
evaluation which functions it has called and how often.

## Main statements

* The monad laws: a step that does nothing can be left out, and steps can be grouped in any way.
-/

namespace Reckon

/-- The outcome of an evaluation, with the numbers of the functions entered, in order. -/
structure Run (β : Type) where
  outcome : Except Error β
  entered : List Nat

namespace Run

variable {β γ δ : Type}

/-- A result without any call. -/
def done (b : β) : Run β := ⟨.ok b, []⟩

/-- A failure without any call. -/
def failed (e : Error) : Run β := ⟨.error e, []⟩

/-- The outcome of something that calls nothing. -/
def ofExcept (outcome : Except Error β) : Run β := ⟨outcome, []⟩

/-- The record of one call. -/
def enter (function : Nat) : Run Unit := ⟨.ok (), [function]⟩

/-- A run and then, if it has a result, another one. -/
def andThen (r : Run β) (f : β → Run γ) : Run γ :=
  match r.outcome with
  | .ok b => ⟨(f b).outcome, r.entered ++ (f b).entered⟩
  | .error e => ⟨.error e, r.entered⟩

instance : Monad Run where
  pure := done
  bind := andThen

/-- How often a function has been entered. -/
def entries (r : Run β) (function : Nat) : Nat := r.entered.count function

theorem pure_andThen (b : β) (f : β → Run γ) : (done b).andThen f = f b := rfl

theorem failed_andThen (e : Error) (f : β → Run γ) : (failed e).andThen f = failed e := rfl

theorem andThen_pure (r : Run β) : r.andThen done = r := by
  rcases r with ⟨_ | _, _⟩ <;> simp [andThen, done]

theorem andThen_assoc (r : Run β) (f : β → Run γ) (g : γ → Run δ) :
    (r.andThen f).andThen g = r.andThen fun b => (f b).andThen g := by
  rcases r with ⟨e | b, entered⟩
  · rfl
  · simp only [andThen]
    cases (f b).outcome <;> simp

instance : LawfulMonad Run := LawfulMonad.mk' Run andThen_pure pure_andThen andThen_assoc

end Run

end Reckon
