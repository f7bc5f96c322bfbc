import Reckon.Proofs.Recompilation

/-!
# Constants and what hides them

A host gives values to names and declares names. A name that is bound to a constant cannot be given
a value, wherever the constant is bound; but a name is declared in the innermost frame alone. So the
constants of the innermost frame are protected from both, whereas one that is bound further out,
such as `pi`, is hidden by a new variable when its name is declared, and the host can give values to
this variable from then on.

## Main definitions

* `Action.AssignsOrDeclares` — giving a name a value, or declaring it.

## Main statements

* `Calculator.Reachable.keeps_perform` — no constant is written to.
* `Calculator.Reachable.isConstant_iff` — which names stay bound to their constants.
* `Calculator.declare_hides` — a constant that is hidden.
-/

namespace Reckon

/-- Giving a name a value, or declaring it, at any time. -/
def Action.AssignsOrDeclares : Action → Prop
  | assign .. | declare _ | wait _ => True
  | _ => False

namespace Workspace

variable {α : Type} [Arithmetic α] {w : Workspace α} {name n : String} {v : Variable}

/-- A new variable is added to the store, which is otherwise left alone. -/
theorem keeps_createVariable (w : Workspace α) (name : String) :
    w.store.Keeps (w.createVariable name).2.store := by
  cases h : w.scope.localVariable? name with
  | some v =>
    rw [createVariable_of_local h]
    exact .refl _
  | none =>
    rw [createVariable_of_free h]
    exact .add w.store name _

/-- Another name that is free in the innermost frame stays free. -/
theorem localVariable?_createVariable_of_ne (h : w.scope.localVariable? n = none) (hne : n ≠ name) :
    (w.createVariable name).2.scope.localVariable? n = none := by
  cases hlocal : w.scope.localVariable? name with
  | some v => rwa [createVariable_of_local hlocal]
  | none => rwa [createVariable_of_free hlocal, bindNew, Scope.localVariable?_bindVariable,
      if_neg hne]

/-- A name that is free in the innermost frame is bound there to a variable, not to a constant. -/
theorem exists_createVariable_of_free (h : w.scope.localVariable? name = none) :
    ∃ u, (w.createVariable name).2.scope.localVariable? name = some u ∧
      u.index < (w.createVariable name).2.store.cells.size ∧
        (w.createVariable name).2.store.isConstant u = false := by
  rw [createVariable_of_free h]
  refine ⟨w.fresh name, ?_, ?_, Store.isConstant_add w.store name _⟩
  · rw [bindNew, Scope.localVariable?_bindVariable, if_pos rfl]
    rfl
  · simp [bindNew, fresh]

end Workspace

namespace Calculator

variable {c : Calculator} {name : String} {v : Variable} {a : Action} {actions : List Action}

/-- Neither giving values nor declaring names makes constants, unmakes them or changes them. -/
theorem Reachable.keeps_perform (hc : c.Reachable) (ha : a.AssignsOrDeclares) :
    c.workspace.store.Keeps (c.perform a).workspace.store := by
  cases a with
  | assign n x =>
    rw [Calculator.perform]
    split
    · next h =>
      obtain ⟨hfree, rfl⟩ := assign_eq_ok h
      exact (hc.isSound.extends_assign x hfree).keeps
    · exact .refl _
  | declare n => exact Workspace.keeps_createVariable _ n
  | wait t => exact (Workspace.Extends.atTime _ t).keeps
  | _ => cases ha

theorem Reachable.keeps_performAll (hc : c.Reachable) (ha : ∀ a ∈ actions, a.AssignsOrDeclares) :
    c.workspace.store.Keeps (c.performAll actions).workspace.store := by
  induction actions generalizing c with
  | nil => exact .refl _
  | cons a actions ih =>
    rw [List.forall_mem_cons] at ha
    exact (hc.keeps_perform ha.1).trans (ih (hc.perform a) ha.2)

/-- A constant that is bound further out is not bound in the innermost frame by giving its name a
value, nor by declaring another name. -/
theorem localVariable?_perform_of_ne (hv : c.findVariable? name = some v)
    (hconst : c.workspace.store.isConstant v) (ha : a.AssignsOrDeclares) (hne : a ≠ .declare name)
    (hlocal : c.workspace.scope.localVariable? name = none) :
    (c.perform a).workspace.scope.localVariable? name = none := by
  cases a with
  | assign n x =>
    rw [perform]
    split
    · next h =>
      obtain ⟨hfree, rfl⟩ := assign_eq_ok h
      refine Workspace.localVariable?_createVariable_of_ne hlocal ?_
      rintro rfl
      rw [hv, Option.any_some, hconst] at hfree
      cases hfree
    · exact hlocal
  | declare n =>
    refine Workspace.localVariable?_createVariable_of_ne hlocal ?_
    rintro rfl
    exact hne rfl
  | wait t => exact hlocal
  | _ => cases ha

/-- A name that is free in the innermost frame is bound to what it is bound to further out. -/
theorem findVariable?_perform_of_free (hv : c.findVariable? name = some v)
    (hlocal : c.workspace.scope.localVariable? name = none)
    (hlocal' : (c.perform a).workspace.scope.localVariable? name = none) :
    (c.perform a).findVariable? name = some v := by
  rw [findVariable?, Scope.findVariable?_eq_or] at hv ⊢
  rw [hlocal, Option.none_or] at hv
  rwa [hlocal', Option.none_or, Scope.outerVariable?,
    Workspace.outer_of_changes (c.changes_perform a)]

/-- Once a name has been declared for which there was a constant further out, it is bound to a
variable in the innermost frame. -/
theorem Reachable.exists_hiding (hc : c.Reachable) (hv : c.findVariable? name = some v)
    (hconst : c.workspace.store.isConstant v)
    (hlocal : c.workspace.scope.localVariable? name = none)
    (ha : ∀ a ∈ actions, a.AssignsOrDeclares) (hdeclared : .declare name ∈ actions) :
    ∃ u, (c.performAll actions).findVariable? name = some u ∧
      (c.performAll actions).workspace.store.isConstant u = false := by
  induction actions generalizing c with
  | nil => cases hdeclared
  | cons a actions ih =>
    rw [List.forall_mem_cons] at ha
    have hc' : (c.perform a).Reachable := hc.perform a
    by_cases heq : a = .declare name
    · -- The variable that is made here stays what the name is bound to.
      subst heq
      obtain ⟨u, hu, hlt, hvariable⟩ := Workspace.exists_createVariable_of_free hlocal
      refine ⟨u, Scope.findVariable?_of_local ?_, ?_⟩
      · exact Workspace.localVariable?_of_changes (changes_performAll _ actions) hu
      · exact ((hc'.keeps_performAll ha.2).isConstant_eq hlt).trans hvariable
    · have hfree := localVariable?_perform_of_ne hv hconst ha.1 heq hlocal
      refine ih hc' (findVariable?_perform_of_free hv hlocal hfree) ?_ hfree ha.2 ?_
      · exact ((hc.keeps_perform ha.1).isConstant_eq (Store.lt_of_isConstant hconst)).trans hconst
      · exact (List.mem_cons.1 hdeclared).resolve_left (Ne.symm heq)

/-- As long as its name is not declared, a constant that is bound further out stays visible. -/
theorem Reachable.findVariable?_performAll (hc : c.Reachable) (hv : c.findVariable? name = some v)
    (hconst : c.workspace.store.isConstant v)
    (hlocal : c.workspace.scope.localVariable? name = none)
    (ha : ∀ a ∈ actions, a.AssignsOrDeclares) (hdeclared : .declare name ∉ actions) :
    (c.performAll actions).findVariable? name = some v := by
  induction actions generalizing c with
  | nil => exact hv
  | cons a actions ih =>
    rw [List.forall_mem_cons] at ha
    rw [List.mem_cons, not_or] at hdeclared
    have hfree := localVariable?_perform_of_ne hv hconst ha.1 (Ne.symm hdeclared.1) hlocal
    refine ih (hc.perform a) (findVariable?_perform_of_free hv hlocal hfree) ?_ hfree ha.2
      hdeclared.2
    exact ((hc.keeps_perform ha.1).isConstant_eq (Store.lt_of_isConstant hconst)).trans hconst

/-- After any names have been given values and declared, a name that was bound to a constant is
bound to a constant if and only if its constant is one of the innermost frame or it has not been
declared; and then it has the value that it had. -/
theorem Reachable.isConstant_iff (hc : c.Reachable) (hv : c.findVariable? name = some v)
    (hconst : c.workspace.store.isConstant v) (ha : ∀ a ∈ actions, a.AssignsOrDeclares) :
    let c' := c.performAll actions
    let Protected :=
      (c.workspace.scope.localVariable? name).isSome ∨ .declare name ∉ actions
    ∃ v', c'.findVariable? name = some v' ∧
      (c'.workspace.store.isConstant v' ↔ Protected) ∧
        (Protected → c'.workspace.store.value v' = c.workspace.store.value v) := by
  intro c' Protected
  have hkeeps := hc.keeps_performAll ha
  have hcell : c'.workspace.store.cell v = c.workspace.store.cell v := hkeeps.cell_eq hconst
  have hconst' : c'.workspace.store.isConstant v := by rwa [Store.isConstant, hcell]
  by_cases hprotected : Protected
  · refine ⟨v, ?_, iff_of_true hconst' hprotected, fun _ => congrArg Cell.value hcell⟩
    cases hlocal : c.workspace.scope.localVariable? name with
    | some u =>
      have hu : c.findVariable? name = some u := Scope.findVariable?_of_local hlocal
      rw [hv] at hu
      rw [← hu] at hlocal
      exact Scope.findVariable?_of_local
        (Workspace.localVariable?_of_changes (changes_performAll c actions) hlocal)
    | none =>
      simp only [Protected, hlocal, Option.isSome_none, Bool.false_eq_true, false_or] at hprotected
      exact hc.findVariable?_performAll hv hconst hlocal ha hprotected
  · have hhidden := hprotected
    simp only [Protected, not_or, not_not, Option.not_isSome_iff_eq_none] at hhidden
    obtain ⟨u, hu, hvariable⟩ := hc.exists_hiding hv hconst hhidden.1 ha hhidden.2
    refine ⟨u, hu, iff_of_false ?_ hprotected, fun h => absurd h hprotected⟩
    rw [hvariable]
    exact Bool.false_ne_true

/-- The host's constant `g` is declared and is not given another value; `pi` is not declared, and is
not given another value either. -/
theorem isConstant_iff_protected :
    let c := (new {} 0).perform (.defineConstant "g" 9)
    let actions : List Action :=
      [.declare "g", .assign "g" 1, .assign "pi" 3, .declare "x", .wait 5, .assign "x" 2]
    let c' := c.performAll actions
    c.Reachable ∧ (∀ a ∈ actions, a.AssignsOrDeclares) ∧
      (∃ v, c'.findVariable? "g" = some v ∧ c'.workspace.store.isConstant v ∧
        c'.workspace.store.value v = 9) ∧
      ∃ v, c'.findVariable? "pi" = some v ∧ c'.workspace.store.isConstant v ∧
        c'.workspace.store.value v = Builtins.pi := by
  intro c actions
  dsimp only
  have hc : c.Reachable := (Reachable.new {} 0).perform _
  have ha : ∀ a ∈ actions, a.AssignsOrDeclares := by
    simp [actions, Action.AssignsOrDeclares]
  have hg : c.findVariable? "g" = some ⟨"g", 1⟩ := by decide +kernel
  have hpi : c.findVariable? "pi" = some ⟨"pi", 0⟩ := by decide +kernel
  obtain ⟨v, hv, hconst, hvalue⟩ := hc.isConstant_iff hg (by decide +kernel) ha
  obtain ⟨u, hu, hconst', hvalue'⟩ := hc.isConstant_iff hpi (by decide +kernel) ha
  have hlocal : (c.workspace.scope.localVariable? "g").isSome := by decide +kernel
  have hfree : .declare "pi" ∉ actions := by simp [actions]
  refine ⟨hc, ha, ⟨v, hv, hconst.2 (.inl hlocal), (hvalue (.inl hlocal)).trans ?_⟩,
    u, hu, hconst'.2 (.inr hfree), (hvalue' (.inr hfree)).trans ?_⟩
  · decide +kernel
  · decide +kernel

/-- The name `pi` is bound to a constant. Once a host has declared it, it is bound to a variable
that is zero. -/
theorem declare_hides :
    let c := new {} 0
    let c' := c.perform (.declare "pi")
    c.Reachable ∧ (∃ v, c.findVariable? "pi" = some v ∧ c.workspace.store.isConstant v ∧
        c.workspace.store.value v = Builtins.pi) ∧
      ∃ v, c'.findVariable? "pi" = some v ∧ c'.workspace.store.isConstant v = false ∧
        c'.workspace.store.value v = 0 := by
  intro c c'
  refine ⟨Reachable.new {} 0, ⟨⟨"pi", 0⟩, ?_⟩, ⟨"pi", 1⟩, ?_⟩ <;> decide +kernel

end Calculator

end Reckon
