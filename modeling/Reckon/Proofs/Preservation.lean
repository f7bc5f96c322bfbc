import Reckon.Proofs.Reachable

/-!
# What compiling leaves alone

However many formulas are compiled, and whether they are right or wrong, every name stays bound to
its cell, and the cell holds what it held before. There are two exceptions if the settings ask for
them: `tau` and `e` are bound to their constants before any formula is read. A host that has a
variable of its own under one of these names finds the constant in its cell, and cannot give it
another value from then on.

## Main definitions

* `Action.Compiles` — compiling a formula, for one use or for many.
* `Settings.named?` — the constant that a name is bound to before a formula is read.

## Main statements

* `Calculator.Reachable.cell_eq_of_compiles` — what becomes of a binding when formulas are compiled.
* `Calculator.evaluate_freezes` — a variable that is made a constant.
-/

namespace Reckon

/-- The constant that a name is bound to before a formula is read. -/
def Settings.named? (settings : Settings) (name : String) : Option Float :=
  if settings.namedConstants then
    if name = "tau" then some Numeral.tau else if name = "e" then some Numeral.e else none
  else
    none

/-- Compiling a formula, for one use or for many. -/
def Action.Compiles : Action → Prop
  | compile _ | evaluate _ => True
  | _ => False

/-! ### Bindings that last -/

namespace Workspace

variable {w : Workspace Float} {settings : Settings} {n : String} {v : Variable}

/-- A name that stands for no constant is not touched before a formula is read. -/
theorem prepared_of_unnamed (hw : w.IsTidy) (hv : w.scope.findVariable? n = some v)
    (hn : settings.named? n = none) :
    (w.prepared settings).scope.findVariable? n = some v ∧
      (w.prepared settings).store.cell v = w.store.cell v := by
  unfold prepared
  split
  · next hnamed =>
    have htau : n ≠ "tau" := by
      rintro rfl
      simp [Settings.named?, hnamed] at hn
    have he : n ≠ "e" := by
      rintro rfl
      simp [Settings.named?, hnamed] at hn
    have htidy : (w.createConstant "tau" Numeral.tau).2.IsTidy :=
      hw.changes (changes_createConstant w _ _)
    obtain ⟨hv', hcell⟩ := createConstant_of_ne hw hv htau Numeral.tau
    obtain ⟨hv'', hcell'⟩ := createConstant_of_ne htidy hv' he Numeral.e
    rw [bindNamed_eq]
    exact ⟨hv'', hcell'.trans hcell⟩
  · exact ⟨hv, rfl⟩

/-- The host's variable under the name of a constant is made that constant. -/
theorem cell_prepared_of_named {x : Float} (hw : w.IsTidy)
    (hv : w.scope.localVariable? n = some v) (hn : settings.named? n = some x) :
    (w.prepared settings).store.cell v = ⟨x, true⟩ := by
  have hholds : (w.prepared settings).Holds n x := by
    unfold Settings.named? at hn
    split at hn
    · next hnamed =>
      have h := holdsNamed_prepared hw settings hnamed
      split at hn
      · next htau =>
        obtain rfl := Option.some.inj hn
        exact htau ▸ h.1
      · split at hn
        · next he =>
          obtain rfl := Option.some.inj hn
          exact he ▸ h.2
        · cases hn
    · cases hn
  obtain ⟨u, hu, hcell⟩ := hholds
  rw [localVariable?_of_changes (changes_prepared w settings) hv] at hu
  exact Option.some.inj hu ▸ hcell

end Workspace

/-! ### Compiling many formulas -/

namespace Calculator

variable {c : Calculator} {name : String} {v : Variable}

/-- Around the names of a host there is nothing but `pi`. -/
theorem Reachable.outerVariable? (h : c.Reachable) (n : String) :
    c.workspace.scope.outerVariable? n = if n = "pi" then some ⟨"pi", 0⟩ else none := by
  induction h with
  | new settings time => exact (Builtins.bind_empty time).2.1 n
  | @perform c _ a ih =>
    rw [Scope.outerVariable?, Workspace.outer_of_changes (c.changes_perform a)]
    exact ih

/-- A name that stands for a constant is bound in the innermost frame, if at all. -/
theorem Reachable.localVariable?_of_named (h : c.Reachable) {x : Float}
    (hv : c.findVariable? name = some v) (hn : c.settings.named? name = some x) :
    c.workspace.scope.localVariable? name = some v := by
  have houter : c.workspace.scope.outerVariable? name = none := by
    rw [h.outerVariable?, if_neg]
    rintro rfl
    simp [Settings.named?] at hn
  rw [findVariable?, Scope.findVariable?_eq_or, houter, Option.or_none] at hv
  exact hv

theorem workspace_perform_of_compiles {a : Action} (ha : a.Compiles) :
    (c.perform a).workspace = c.workspace.prepared c.settings := by
  cases a with
  | compile => rfl
  | evaluate => rfl
  | _ => cases ha

/-- A formula that is compiled leaves a name its cell. What is in the cell changes if the name
stands for a constant, and in no other case. -/
theorem Reachable.cell_perform_of_compiles {a : Action} (hc : c.Reachable) (ha : a.Compiles)
    (hv : c.findVariable? name = some v) :
    (c.perform a).findVariable? name = some v ∧ (c.perform a).workspace.store.cell v =
      (c.settings.named? name).elim (c.workspace.store.cell v) fun x => ⟨x, true⟩ := by
  rw [findVariable?, workspace_perform_of_compiles ha]
  cases hn : c.settings.named? name with
  | none => exact Workspace.prepared_of_unnamed hc.isSound.tidy hv hn
  | some x =>
    have hlocal := hc.localVariable?_of_named hv hn
    refine ⟨Scope.findVariable?_of_local ?_,
      Workspace.cell_prepared_of_named hc.isSound.tidy hlocal hn⟩
    exact Workspace.localVariable?_of_changes (Workspace.changes_prepared _ _) hlocal

/-- What becomes of a binding of `name` to `v`: it stays, and the cell keeps what is in it or, if
the name stands for a constant, is given this constant if `compiled` says so, and keeps it. -/
structure Survives (name : String) (v : Variable) (compiled : Prop) (c c' : Calculator) :
    Prop where
  findVariable?_eq : c'.findVariable? name = some v
  cell_eq (h : c.settings.named? name = none) :
    c'.workspace.store.cell v = c.workspace.store.cell v
  cell_eq_named {x : Float} (h : c.settings.named? name = some x)
    (h' : compiled ∨ c.workspace.store.cell v = ⟨x, true⟩) : c'.workspace.store.cell v = ⟨x, true⟩

theorem Reachable.survives_perform {a : Action} (hc : c.Reachable)
    (hv : c.findVariable? name = some v) (ha : a.Compiles ∨ ∃ t, a = .wait t) :
    Survives name v a.Compiles c (c.perform a) := by
  rcases ha with ha | ⟨t, rfl⟩
  · obtain ⟨hv', hcell⟩ := hc.cell_perform_of_compiles ha hv
    refine ⟨hv', fun h => ?_, fun h _ => ?_⟩
    · rw [hcell, h, Option.elim_none]
    · rw [hcell, h, Option.elim_some]
  · refine ⟨hv, fun _ => rfl, fun _ h => ?_⟩
    rcases h with h | h
    · cases h
    · exact h

theorem Reachable.survives_performAll (hc : c.Reachable) (hv : c.findVariable? name = some v)
    {actions : List Action} (ha : ∀ a ∈ actions, a.Compiles ∨ ∃ t, a = .wait t) :
    Survives name v (∃ a ∈ actions, a.Compiles) c (c.performAll actions) := by
  induction actions generalizing c with
  | nil =>
    refine ⟨hv, fun _ => rfl, fun _ h => ?_⟩
    rcases h with ⟨a, hmem, -⟩ | h
    · cases hmem
    · exact h
  | cons a actions ih =>
    rw [List.forall_mem_cons] at ha
    have hstep := hc.survives_perform hv ha.1
    have hrest := ih (hc.perform a) hstep.findVariable?_eq ha.2
    have hsettings := c.settings_perform a
    refine ⟨hrest.findVariable?_eq, fun h => ?_, fun {x} h h' => ?_⟩
    · exact (hrest.cell_eq (hsettings ▸ h)).trans (hstep.cell_eq h)
    · refine hrest.cell_eq_named (hsettings ▸ h) ?_
      rw [List.exists_mem_cons_iff] at h'
      -- The first action is a formula, or a later one is, or none is and the constant is there.
      rcases h' with (ha | htail) | hcell
      · exact .inr (hstep.cell_eq_named h (.inl ha))
      · exact .inl htail
      · exact .inr (hstep.cell_eq_named h (.inr hcell))

/-- However many formulas are compiled, a name keeps its cell. If the name stands for no constant,
the cell keeps its value and stays a constant or a variable; if it does, the cell is this constant
as soon as one formula has been compiled. -/
theorem Reachable.cell_eq_of_compiles (hc : c.Reachable) (hv : c.findVariable? name = some v)
    {actions : List Action} (ha : ∀ a ∈ actions, a.Compiles ∨ ∃ t, a = .wait t) :
    let c' := c.performAll actions
    c'.findVariable? name = some v ∧
      (c.settings.named? name = none → c'.workspace.store.cell v = c.workspace.store.cell v) ∧
      ∀ x, c.settings.named? name = some x → (∃ a ∈ actions, a.Compiles) →
        c'.workspace.store.cell v = ⟨x, true⟩ :=
  have h := hc.survives_performAll hv ha
  ⟨h.findVariable?_eq, h.cell_eq, fun _ hn hcompiles => h.cell_eq_named hn (.inl hcompiles)⟩

/-- A host that has bound `x`, `tau` and its own `pi`, and texts that are right and wrong. -/
theorem cell_eq_of_compiles_named :
    let c := (new {} 0).performAll [.assign "x" 3, .declare "tau", .declare "pi", .assign "pi" 4]
    let actions : List Action := [.evaluate "x +", .wait 7, .compile "x * pi", .evaluate "1 2"]
    let c' := c.performAll actions
    c.Reachable ∧ (∀ a ∈ actions, a.Compiles ∨ ∃ t, a = .wait t) ∧
      (∃ v, c.findVariable? "pi" = some v ∧ c'.findVariable? "pi" = some v ∧
        c'.workspace.store.cell v = c.workspace.store.cell v) ∧
      ∃ v, c.findVariable? "tau" = some v ∧ c'.findVariable? "tau" = some v ∧
        c'.workspace.store.cell v = ⟨6.283185307179586, true⟩ := by
  intro c actions c'
  have hc : c.Reachable := (Reachable.new {} 0).performAll _
  have ha : ∀ a ∈ actions, a.Compiles ∨ ∃ t, a = .wait t := by
    simp [actions, Action.Compiles]
  have hpi : c.findVariable? "pi" = some ⟨"pi", 3⟩ := by decide +kernel
  have htau : c.findVariable? "tau" = some ⟨"tau", 2⟩ := by decide +kernel
  obtain ⟨hpi', hcell, -⟩ := hc.cell_eq_of_compiles hpi ha
  obtain ⟨htau', -, hcell'⟩ := hc.cell_eq_of_compiles htau ha
  refine ⟨hc, ha, ⟨_, hpi, hpi', hcell (by decide +kernel)⟩, _, htau, htau', ?_⟩
  exact hcell' _ (by decide +kernel) ⟨_, List.mem_cons_self, trivial⟩

/-- A host's own `e` is still the cell that the name is bound to after a formula has been compiled
that does not mention it, but it has another value and is a constant. -/
theorem evaluate_freezes :
    let c := (new {} 0).perform (.assign "e" 1)
    let c' := c.perform (.evaluate "1")
    c.Reachable ∧ ∃ v, c.findVariable? "e" = some v ∧ c'.findVariable? "e" = some v ∧
      c.workspace.store.value v = 1 ∧ c.workspace.store.isConstant v = false ∧
        c'.workspace.store.value v = 2.718281828459045 ∧
          c'.workspace.store.isConstant v = true := by
  intro c c'
  refine ⟨(Reachable.new {} 0).perform _, ⟨"e", 1⟩, ?_⟩
  decide +kernel

end Calculator

end Reckon
