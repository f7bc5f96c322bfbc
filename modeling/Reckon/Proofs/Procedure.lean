import Reckon.Error

/-!
# Procedures

A `Procedure` reads and changes a state and may fail, in which case it keeps the state that it has
reached. It may also go on for ever: a loop or a recursion can be written down as a procedure
without a reason why it ends. That it does end is then something to be proved of it.

## Main definitions

* `Procedure` — what is done to a state, `none` if it has no end.

## Main statements

* `Procedure.bind_of_ok`, `Procedure.bind_of_error` — a procedure and then another one.
-/

namespace Reckon

/-- A computation on a state that may fail and may have no end. -/
abbrev Procedure (σ β : Type) := ExceptT Error (StateT σ Option) β

namespace Procedure

variable {σ β γ : Type} {x : Procedure σ β} {f : β → Procedure σ γ} {s s' : σ}

theorem bind_of_ok {b : β} (h : x s = some (.ok b, s')) : (x >>= f) s = f b s' := by
  show (x s).bind _ = _
  rw [h]
  rfl

theorem bind_of_error {e : Error} (h : x s = some (.error e, s')) :
    (x >>= f) s = some (.error e, s') := by
  show (x s).bind _ = _
  rw [h]
  rfl

end Procedure

end Reckon
