import Reckon.Calculator
import Reckon.Proofs.Binding

/-!
# Reachable calculators

A host makes a calculator and then acts on it: it gives names values, defines constants, declares
variables, compiles and evaluates formulas, and uses the variables that it holds on to. Between two
actions time may pass. An action that fails leaves the calculator as it is, but for the named
constants, which compiling binds in any case.

## Main definitions

* `Action`, `Calculator.perform` — what a host can do.
* `Calculator.Reachable` — what comes of it.
* `Workspace.IsSound` — the standard functions and constants are there for every formula.

## Main statements

* `Calculator.changes_perform` — actions are made of changes of the workspace.
* `Calculator.Reachable.isSound` — reachable calculators are sound.
* `Workspace.IsSound.localVariable?_of_not_constant` — what is not a constant is bound in the
  innermost frame.
-/

namespace Reckon

/-- What a host can do with a calculator. It may use any variables, since it may hold on to them. -/
inductive Action where
  | assign (name : String) (x : Float)
  | defineConstant (name : String) (x : Float)
  | declare (name : String)
  | compile (source : String)
  | evaluate (source : String)
  | write (v : Variable) (x : Float)
  | freeze (v : Variable) (x : Float)
  /-- The next action takes place at another time. -/
  | wait (t : Float)

namespace Calculator

/-- The same calculator at another time. -/
def atTime (c : Calculator) (t : Float) : Calculator := { c with workspace := c.workspace.atTime t }

/-- The calculator after an action. -/
def perform (c : Calculator) : Action → Calculator
  | .assign name x =>
    match c.assign name x with
    | .ok c' => c'
    | .error _ => c
  | .defineConstant name x => (c.defineConstant name x).2
  | .declare name => (c.declare name).2
  | .compile source => (c.compile source).2
  | .evaluate source => (c.evaluate source).2
  | .write v x => { c with workspace := c.workspace.write v x }
  | .freeze v x => { c with workspace := c.workspace.freeze v x }
  | .wait t => c.atTime t

/-- The calculator after several actions. -/
def performAll (c : Calculator) (actions : List Action) : Calculator := actions.foldl perform c

/-- The calculators that a host can come by. -/
inductive Reachable : Calculator → Prop
  | new (settings : Settings) (time : Float) : Reachable (new settings time)
  | perform {c : Calculator} (h : Reachable c) (a : Action) : Reachable (c.perform a)

theorem Reachable.performAll {c : Calculator} (h : c.Reachable) (actions : List Action) :
    (c.performAll actions).Reachable := by
  induction actions generalizing c with
  | nil => exact h
  | cons a actions ih => exact ih (h.perform a)

/-! ### Actions as changes -/

variable {c c' : Calculator}

/-- A value is given to a name that is not bound to a constant. -/
theorem assign_eq_ok {name : String} {x : Float} (h : c.assign name x = .ok c') :
    (c.findVariable? name).any c.workspace.store.isConstant = false ∧
      c' = { c with workspace := c.workspace.assign name x } := by
  unfold assign at h
  split at h
  · cases h
  · next hconst =>
    obtain rfl := Except.ok.inj h
    exact ⟨Bool.eq_false_iff.2 hconst, rfl⟩

theorem settings_perform (c : Calculator) (a : Action) : (c.perform a).settings = c.settings := by
  cases a with
  | assign name x =>
    rw [perform]
    split
    · next h => rw [(assign_eq_ok h).2]
    · rfl
  | _ => rfl

/-- Every action is a sequence of changes. -/
theorem changes_perform (c : Calculator) (a : Action) :
    Workspace.Changes c.workspace (c.perform a).workspace := by
  cases a with
  | assign name x =>
    rw [perform]
    split
    · next h =>
      rw [(assign_eq_ok h).2]
      exact Workspace.changes_assign _ _ _
    · exact .refl
  | defineConstant name x => exact Workspace.changes_createConstant _ _ _
  | declare name => exact Workspace.changes_createVariable _ _
  | compile source => exact Workspace.changes_prepared _ _
  | evaluate source => exact Workspace.changes_prepared _ _
  | write v x => exact Workspace.changes_write _ _ _
  | freeze v x => exact Workspace.changes_freeze _ _ _
  | wait t => exact .single (.time _ t)

theorem changes_performAll (c : Calculator) (actions : List Action) :
    Workspace.Changes c.workspace (c.performAll actions).workspace := by
  induction actions generalizing c with
  | nil => exact .refl
  | cons a actions ih => exact (c.changes_perform a).trans (ih _)

end Calculator

/-! ### Sound workspaces -/

namespace Workspace

/-- The frames around the innermost one hold nothing but constants, and all functions are standard
ones. -/
structure IsSound (w : Workspace Float) : Prop where
  tidy : w.IsTidy
  isConstant_of_outer {n : String} {v : Variable} (h : w.scope.outerVariable? n = some v) :
    w.store.isConstant v
  mem_functions {n : String} {f : Function Float} (h : w.scope.findFunction? n = some f) :
    f ∈ Builtins.functions

variable {w w' : Workspace Float}

theorem IsSound.change (h : w.IsSound) (hw : Change w w') : w'.IsSound := by
  refine ⟨h.tidy.change hw, ?_, ?_⟩
  · cases hw with
    | put v c hc => exact fun hv => Store.isConstant_put hc (h.isConstant_of_outer hv)
    | @bindNew name c _ =>
      intro n v hv
      have hconst : w.store.isConstant v := h.isConstant_of_outer hv
      have hkeeps := Store.Keeps.add w.store name c
      exact (hkeeps.isConstant_eq (Store.lt_of_isConstant hconst)).trans hconst
    | time => exact h.isConstant_of_outer
  · cases hw with
    | put => exact h.mem_functions
    | bindNew => exact h.mem_functions
    | time => exact h.mem_functions

theorem IsSound.changes (h : w.IsSound) (hw : Changes w w') : w'.IsSound := by
  induction hw with
  | refl => exact h
  | tail _ hw ih => exact ih.change hw

/-- A variable that is not a constant is bound in the innermost frame. -/
theorem IsSound.localVariable?_of_not_constant (h : w.IsSound) {n : String} {v : Variable}
    (hv : w.scope.findVariable? n = some v) (hconst : w.store.isConstant v = false) :
    w.scope.localVariable? n = some v := by
  rw [Scope.findVariable?_eq_or] at hv
  cases hlocal : w.scope.localVariable? n with
  | some u =>
    rw [hlocal, Option.some_or] at hv
    exact hv
  | none =>
    rw [hlocal, Option.none_or] at hv
    rw [h.isConstant_of_outer hv] at hconst
    cases hconst

end Workspace

/-! ### New calculators -/

section CreateFunction

variable {α : Type}

/-- Binding functions changes neither the store nor the variables. -/
theorem Workspace.foldl_createFunction (fs : List (Function α)) (w : Workspace α) :
    let w' := fs.foldl (fun w f => (w.createFunction f.name f).2) w
    w'.store = w.store ∧ w'.scope.outer = w.scope.outer ∧
      w'.scope.inner.variableTable = w.scope.inner.variableTable ∧
      ∀ n f, w'.scope.localFunction? n = some f → w.scope.localFunction? n = some f ∨ f ∈ fs := by
  induction fs generalizing w with
  | nil => exact ⟨rfl, rfl, rfl, fun n f h => .inl h⟩
  | cons f fs ih =>
    obtain ⟨hstore, houter, htable, hfunctions⟩ := ih (w.createFunction f.name f).2
    have hlocal (n : String) (g : Function α)
        (h : (w.createFunction f.name f).2.scope.localFunction? n = some g) :
        w.scope.localFunction? n = some g ∨ g = f := by
      unfold createFunction at h
      split at h
      · exact .inl h
      · rw [Scope.localFunction?, Scope.bindFunction, Table.find?_insert] at h
        split at h
        · exact .inr (Option.some.inj h).symm
        · exact .inl h
    refine ⟨hstore.trans ?_, houter.trans ?_, htable.trans ?_, fun n g h => ?_⟩
    · unfold createFunction
      split <;> rfl
    · unfold createFunction
      split <;> rfl
    · unfold createFunction
      split <;> rfl
    · rcases hfunctions n g h with h | h
      · rcases hlocal n g h with h | rfl
        · exact .inl h
        · exact .inr List.mem_cons_self
      · exact .inr (List.mem_cons_of_mem f h)

end CreateFunction

/-- There is one standard constant, and all functions are standard ones. -/
theorem Builtins.bind_empty (time : Float) :
    (bind (.empty time)).store.cells = #[⟨pi, true⟩] ∧
      (∀ n, (bind (.empty time)).scope.findVariable? n =
        if n = "pi" then some ⟨"pi", 0⟩ else none) ∧
      ∀ {n f}, (bind (.empty time)).scope.findFunction? n = some f → f ∈ functions := by
  have h := Workspace.foldl_createFunction functions
    ((Workspace.empty time).createConstant "pi" pi).2
  unfold bind
  generalize functions.foldl _ _ = w at h
  obtain ⟨hstore, houter, htable, hfunctions⟩ := h
  refine ⟨congrArg Store.cells hstore, fun n => ?_, fun {n f} h => ?_⟩
  · have houter : w.scope.outerVariable? n = none := by
      rw [Scope.outerVariable?, houter]
      rfl
    rw [Scope.findVariable?_eq_or, houter, Option.or_none, Scope.localVariable?, htable]
    exact Table.find?_insert ..
  · have hlocal : w.scope.localFunction? n = some f := by
      rw [Scope.findFunction?, Scope.frames, houter, List.findSome?_cons] at h
      split at h
      · next g hg => exact hg.trans h
      · cases h
    rcases hfunctions n f hlocal with h | h
    · cases h
    · exact h

/-- A frame may be opened for a host around which there are the standard functions and `pi`. -/
theorem Workspace.isSound_push {w : Workspace Float} {x : Float}
    (hcells : w.store.cells = #[⟨x, true⟩])
    (hfind : ∀ n, w.scope.findVariable? n = if n = "pi" then some ⟨"pi", 0⟩ else none)
    (hfunctions : ∀ {n f}, w.scope.findFunction? n = some f → f ∈ Builtins.functions) :
    w.push.IsSound := by
  have hpi {n : String} {v : Variable} (h : w.scope.findVariable? n = some v) :
      n = "pi" ∧ v = ⟨"pi", 0⟩ := by
    rw [hfind] at h
    split at h
    · next hn => exact ⟨hn, (Option.some.inj h).symm⟩
    · cases h
  refine ⟨⟨fun h => ?_, fun h => ?_, fun h h' _ => ?_⟩, fun h => ?_, fun h => hfunctions h⟩
  · obtain ⟨rfl, rfl⟩ := hpi h
    rfl
  · obtain ⟨rfl, rfl⟩ := hpi h
    simp [push, hcells]
  · rw [(hpi h).1, (hpi h').1]
  · obtain ⟨rfl, rfl⟩ := hpi h
    simp [push, Store.isConstant, Store.cell, hcells]

theorem Calculator.workspace_new (settings : Settings) (time : Float) :
    (new settings time).workspace = (Builtins.bind (.empty time)).push := rfl

theorem Calculator.isSound_new (settings : Settings) (time : Float) :
    (new settings time).workspace.IsSound := by
  obtain ⟨hcells, hfind, hfunctions⟩ := Builtins.bind_empty time
  rw [workspace_new]
  exact Workspace.isSound_push hcells hfind hfunctions

theorem Calculator.Reachable.isSound {c : Calculator} (h : c.Reachable) : c.workspace.IsSound := by
  induction h with
  | new settings time => exact isSound_new settings time
  | @perform c _ a ih => exact ih.changes (c.changes_perform a)

end Reckon
