import Reckon.Proofs.NormalForm
import Reckon.Proofs.Preservation
import Reckon.Proofs.Recompilation

/-!
# Formulas that stay linked

A formula refers to cells. Its variables are no constants when it is compiled, so that their names
are bound in the innermost frame, and there a name keeps its cell whatever a host does. Therefore a
formula reads what its names stand for at any time: the value of a variable is the one that was
given to the name last, no matter in which way, and there is nothing else that the formula reads,
apart from the time.

A value may be given to a name directly, by defining a constant, by declaring the name, through a
handle on the cell, or by compiling a formula, if the name stands for a constant that is bound then.

## Main definitions

* `Calculator.given?` — the value that an action gives to a name.
* `Calculator.latest?` — the value that a name is given last.
* `Workspace.Accounts` — a name has the value that it has been given, or else the one that it had.

## Main statements

* `Workspace.Accounts.trans` — values that are given one after another.
* `Calculator.accounts_performAll` — the value of a name after any actions.
* `Calculator.localVariable?_of_compile` — the names of the variables in a formula.
* `Calculator.latest?_of_compile` — a formula reads what was given to its names last.
-/

namespace Reckon

/-! ### Values that are given -/

namespace Workspace

section Accounts

variable {α : Type} [Arithmetic α] {w w' w'' : Workspace α} {name n : String} {u v : Variable}
  {x? y? : Option α}

/-- On the way from `w` to `w'`, the name has been given the value `x?`, if any. If none was given,
it is bound in `w` as it is in `w'`, and has the value that it has there. -/
def Accounts (x? : Option α) (name : String) (w w' : Workspace α) : Prop :=
  ∀ v : Variable, w'.scope.localVariable? name = some v →
    match x? with
    | some x => w'.store.value v = x
    | none => w.scope.localVariable? name = some v ∧ w'.store.value v = w.store.value v

theorem Accounts.refl (name : String) (w : Workspace α) : Accounts none name w w :=
  fun _ hv => ⟨hv, rfl⟩

/-- What is given later counts. -/
theorem Accounts.trans (h : Accounts x? name w w') (h' : Accounts y? name w' w'') :
    Accounts (y?.or x?) name w w'' := by
  intro v hv
  have hv' := h' v hv
  cases y? with
  | some y => exact hv'
  | none =>
    have hv'' := h v hv'.1
    cases x? with
    | some x => exact hv'.2.trans hv''
    | none => exact ⟨hv''.1, hv'.2.trans hv''.2⟩

/-- Filling a cell gives a value to the name that is bound to it. -/
theorem accounts_put (hw : w.IsTidy) (name : String) (u : Variable) (c : Cell α) :
    Accounts (if (w.scope.findVariable? name).any (·.index == u.index) then some c.value else none)
      name w { w with store := w.store.put u c } := by
  intro v hv
  have hv : w.scope.localVariable? name = some v := hv
  have hfind := Scope.findVariable?_of_local hv
  rw [hfind, Option.any_some]
  by_cases hindex : v.index = u.index
  · rw [if_pos (beq_iff_eq.2 hindex)]
    exact congrArg Cell.value (Store.cell_put c hindex.symm (hindex ▸ hw.index_lt hfind))
  · rw [if_neg (mt beq_iff_eq.1 hindex)]
    exact ⟨hv, congrArg Cell.value (Store.cell_put_of_ne c (Ne.symm hindex))⟩

/-- Filling the cell of a name gives a value to this name. -/
theorem accounts_put_of_local (hw : w.IsTidy) (hu : w.scope.localVariable? n = some u)
    (c : Cell α) :
    Accounts (if n = name then some c.value else none) name w
      { w with store := w.store.put u c } := by
  intro v hv
  have hput := accounts_put hw name u c v hv
  have hfind := Scope.findVariable?_of_local hu
  have hfind' : w.scope.findVariable? name = some v := Scope.findVariable?_of_local hv
  -- Different names have different cells.
  have hindex : v.index = u.index ↔ n = name := by
    constructor
    · exact fun h => hw.name_inj hfind hfind' h.symm
    · rintro rfl
      rw [hfind] at hfind'
      rw [Option.some.inj hfind']
  rw [hfind', Option.any_some] at hput
  simpa only [beq_iff_eq, hindex] using hput

/-- Binding a name to a new cell gives it the value in that cell. -/
theorem accounts_bindNew (hw : w.IsTidy) (n name : String) (c : Cell α) :
    Accounts (if n = name then some c.value else none) name w (w.bindNew n c) := by
  intro v hv
  rw [bindNew, Scope.localVariable?_bindVariable] at hv
  by_cases hn : name = n
  · rw [if_pos hn] at hv
    obtain rfl := Option.some.inj hv
    rw [if_pos hn.symm]
    exact Store.value_add w.store n c
  · rw [if_neg hn] at hv
    rw [if_neg (Ne.symm hn)]
    have hlt := hw.index_lt (Scope.findVariable?_of_local hv)
    exact ⟨hv, congrArg Cell.value (Store.cell_add_of_lt n c hlt)⟩

theorem accounts_createConstant (hw : w.IsTidy) (n name : String) (x : α) :
    Accounts (if n = name then some x else none) name w (w.createConstant n x).2 := by
  cases hlocal : w.scope.localVariable? n with
  | some u =>
    rw [createConstant_of_local x hlocal]
    exact accounts_put_of_local hw hlocal ⟨x, true⟩
  | none =>
    rw [createConstant_of_free x hlocal]
    exact accounts_bindNew hw n name ⟨x, true⟩

theorem accounts_createVariable (hw : w.IsTidy) (n name : String) :
    Accounts (if n = name ∧ w.scope.localVariable? name = none then some Arithmetic.zero else none)
      name w (w.createVariable n).2 := by
  cases hlocal : w.scope.localVariable? n with
  | some u =>
    rw [createVariable_of_local hlocal, if_neg]
    · exact .refl name w
    · rintro ⟨rfl, hfree⟩
      rw [hlocal] at hfree
      cases hfree
  | none =>
    have hiff : (n = name ∧ w.scope.localVariable? name = none) ↔ n = name :=
      ⟨And.left, fun h => ⟨h, h ▸ hlocal⟩⟩
    rw [createVariable_of_free hlocal, if_congr hiff rfl rfl]
    exact accounts_bindNew hw n name _

theorem localVariable?_createVariable (w : Workspace α) (n : String) :
    (w.createVariable n).2.scope.localVariable? n = some (w.createVariable n).1 := by
  cases hlocal : w.scope.localVariable? n with
  | some u => rwa [createVariable_of_local hlocal]
  | none =>
    rw [createVariable_of_free hlocal, bindNew, Scope.localVariable?_bindVariable, if_pos rfl]
    rfl

/-- The value that a name is given stands in for the zero that it may have been given before. -/
theorem accounts_assign (hw : w.IsTidy) (n name : String) (x : α) :
    Accounts (if n = name then some x else none) name w (w.assign n x) := by
  have htidy : (w.createVariable n).2.IsTidy := hw.changes (changes_createVariable w n)
  have hwrite : Accounts (if n = name then some x else none) name (w.createVariable n).2
      (w.assign n x) :=
    accounts_put_of_local htidy (localVariable?_createVariable w n) ⟨x, _⟩
  have h := (accounts_createVariable hw n name).trans hwrite
  by_cases hn : n = name
  · rw [if_pos hn, Option.some_or] at h
    rw [if_pos hn]
    exact h
  · rw [if_neg hn, Option.none_or, if_neg fun h => hn h.1] at h
    rw [if_neg hn]
    exact h

end Accounts

/-- Before a formula is read, the names that stand for constants are given them. -/
theorem accounts_prepared {w : Workspace Float} (hw : w.IsTidy) (settings : Settings)
    (name : String) : Accounts (settings.named? name) name w (w.prepared settings) := by
  unfold prepared
  split
  · next hnamed =>
    have htidy : (w.createConstant "tau" Numeral.tau).2.IsTidy :=
      hw.changes (changes_createConstant w _ _)
    have h := (accounts_createConstant hw "tau" name Numeral.tau).trans
      (accounts_createConstant htidy "e" name Numeral.e)
    have hgiven : settings.named? name = (if "e" = name then some Numeral.e else none).or
        (if "tau" = name then some Numeral.tau else none) := by
      rw [Settings.named?, if_pos hnamed]
      by_cases htau : name = "tau"
      · subst htau
        rfl
      · rw [if_neg htau, if_neg (Ne.symm htau), Option.or_none, if_congr eq_comm rfl rfl]
    rw [hgiven, bindNamed_eq]
    exact h
  · next hnamed =>
    rw [Settings.named?, if_neg hnamed]
    exact .refl name w

end Workspace

/-! ### Histories -/

namespace Calculator

variable {c : Calculator} {name : String}

/-- The value that an action gives to a name, if any. A name that is bound to a constant is not
given a value directly, but may be given one through a handle. -/
def given? (c : Calculator) (name : String) : Action → Option Float
  | .assign n x =>
    if n = name ∧ (c.findVariable? name).any c.workspace.store.isConstant = false then some x
    else none
  | .defineConstant n x => if n = name then some x else none
  | .declare n =>
    if n = name ∧ c.workspace.scope.localVariable? name = none then some Arithmetic.zero else none
  | .compile _ | .evaluate _ => c.settings.named? name
  | .write u x | .freeze u x =>
    if (c.findVariable? name).any (·.index == u.index) then some x else none
  | .wait _ => none

/-- The value that a name is given last by several actions, if any. -/
def latest? (c : Calculator) (name : String) : List Action → Option Float
  | [] => none
  | a :: actions => ((c.perform a).latest? name actions).or (c.given? name a)

theorem accounts_perform (hw : c.workspace.IsTidy) (name : String) (a : Action) :
    Workspace.Accounts (c.given? name a) name c.workspace (c.perform a).workspace := by
  cases a with
  | assign n x =>
    cases h : c.assign n x with
    | ok c' =>
      obtain ⟨hfree, rfl⟩ := assign_eq_ok h
      have hiff : (n = name ∧ (c.findVariable? name).any c.workspace.store.isConstant = false) ↔
          n = name := ⟨And.left, fun h => ⟨h, h ▸ hfree⟩⟩
      rw [perform, h, given?, if_congr hiff rfl rfl]
      exact Workspace.accounts_assign hw n name x
    | error err =>
      rw [perform, h, given?, if_neg]
      · exact .refl name _
      · rintro ⟨rfl, hfree⟩
        simp [assign, hfree] at h
  | defineConstant n x => exact Workspace.accounts_createConstant hw n name x
  | declare n => exact Workspace.accounts_createVariable hw n name
  | compile source => exact Workspace.accounts_prepared hw c.settings name
  | evaluate source => exact Workspace.accounts_prepared hw c.settings name
  | write u x => exact Workspace.accounts_put hw name u ⟨x, _⟩
  | freeze u x => exact Workspace.accounts_put hw name u ⟨x, true⟩
  | wait t => exact fun _ hv => ⟨hv, rfl⟩

/-- After any actions, a name has the value that it was given last. -/
theorem accounts_performAll (hw : c.workspace.IsTidy) (name : String) (actions : List Action) :
    Workspace.Accounts (c.latest? name actions) name c.workspace
      (c.performAll actions).workspace := by
  induction actions generalizing c with
  | nil => exact .refl name _
  | cons a actions ih =>
    exact (accounts_perform hw name a).trans (ih (hw.changes (c.changes_perform a)))

/-- Since a new calculator has no names of a host, all that are there later have been given
values. -/
theorem latest?_of_local {settings : Settings} {time : Float} {actions : List Action} {v : Variable}
    (hv : ((new settings time).performAll actions).workspace.scope.localVariable? name = some v) :
    (new settings time).latest? name actions =
      some (((new settings time).performAll actions).workspace.store.value v) := by
  have h := accounts_performAll (isSound_new settings time).tidy name actions v hv
  cases hlatest : (new settings time).latest? name actions with
  | some x =>
    rw [hlatest] at h
    exact congrArg some h.symm
  | none =>
    rw [hlatest] at h
    cases h.1

end Calculator

/-! ### The variables in a formula -/

mutual

/-- There are no constants among the variables in a normal form. -/
theorem Expr.IsNormal.not_isConstant {α : Type} [Arithmetic α] {s : Store α} :
    ∀ {e : Expr α}, e.IsNormal s → ∀ v ∈ e.readVariables, s.isConstant v = false
  | .constant x, _ => by simp [readVariables]
  | .variable v, h => by
    rw [IsNormal] at h
    simpa [readVariables] using h
  | .binary op l r b, h => by
    rw [IsNormal] at h
    rw [readVariables, List.forall_mem_append]
    exact ⟨h.1.not_isConstant, h.2.1.not_isConstant⟩
  | .call f es, h => by
    rw [IsNormal] at h
    rw [readVariables]
    exact h.1.not_isConstant

/-- The same for several trees. -/
theorem Expr.AllNormal.not_isConstant {α : Type} [Arithmetic α] {s : Store α} :
    ∀ {es : List (Expr α)}, AllNormal s es →
      ∀ v ∈ Expr.readVariablesOfAll es, s.isConstant v = false
  | [], _ => by simp [readVariablesOfAll]
  | e :: es, h => by
    rw [AllNormal] at h
    rw [readVariablesOfAll, List.forall_mem_append]
    exact ⟨h.1.not_isConstant, h.2.not_isConstant⟩

end

namespace Calculator

variable {c : Calculator} {source : String} {f : Formula}

/-- The names of the variables in a formula are bound in the innermost frame. -/
theorem localVariable?_of_compile (hc : c.Reachable) (hf : (c.compile source).1.outcome = .ok f) :
    ∀ v ∈ f.expr.readVariables,
      (c.compile source).2.workspace.scope.localVariable? v.name = some v := by
  intro v hv
  obtain ⟨us, e₀, -, hread, hsimplify⟩ :=
    Workspace.compile_eq_ok_iff.1 (compile_eq_ok.1 hf).1
  have hs := hc.isSound.changes (Workspace.changes_prepared _ c.settings)
  have hover := hread.isOver (V := fun v => ∃ n, (c.compile source).2.findVariable? n = some v)
    (P := fun _ => True) (fun hv => ⟨_, hv⟩) (fun _ => trivial) trivial trivial
  -- A name is bound to `v`, and `v` is no constant, or it would have been folded.
  obtain ⟨n, hn⟩ :=
    ((hover e₀ (List.mem_singleton_self e₀)).simplify hsimplify).of_read v hv
  have hconst := (Expr.isNormal_simplified e₀ hsimplify).not_isConstant v hv
  rw [hs.tidy.name_eq hn]
  exact hs.localVariable?_of_not_constant hn hconst

/-- In every state after a formula has been compiled, each variable in it is the one that its name
is bound to, and has the value that was given to the name last. So the formula has the outcome that
its tree has with the latest values, in whatever store they are, at the same time. -/
theorem latest?_of_compile {settings : Settings} {time : Float} {before later : List Action}
    (hf : (((new settings time).performAll before).compile source).1.outcome = .ok f) :
    let history := before ++ .compile source :: later
    let c' := (new settings time).performAll history
    (∀ v ∈ f.expr.readVariables, c'.findVariable? v.name = some v ∧
      (new settings time).latest? v.name history = some (c'.workspace.store.value v)) ∧
    ∀ s : Store Float, s.time = c'.workspace.store.time →
      (∀ v ∈ f.expr.readVariables,
        (new settings time).latest? v.name history = some (s.value v)) →
      f.evaluate c'.workspace.store = f.expr.evaluate s := by
  intro history c'
  have hc : ((new settings time).performAll before).Reachable :=
    (Reachable.new settings time).performAll before
  have hc' : c' = (((new settings time).performAll before).compile source).2.performAll later := by
    simp only [c', history, performAll, List.foldl_append, List.foldl_cons]
    rfl
  -- The names are bound to these cells when the formula is compiled, and keep them.
  have hlocal : ∀ v ∈ f.expr.readVariables,
      c'.workspace.scope.localVariable? v.name = some v := by
    intro v hv
    rw [hc']
    exact Workspace.localVariable?_of_changes (changes_performAll _ later)
      (localVariable?_of_compile hc hf v hv)
  refine ⟨fun v hv => ?_, fun s htime hvalues => ?_⟩
  · exact ⟨Scope.findVariable?_of_local (hlocal v hv), latest?_of_local (hlocal v hv)⟩
  · refine Expr.evaluate_eq_of_values (Expr.calls_iff.2 fun _ _ => .inr htime.symm) fun v hv => ?_
    exact Option.some.inj ((latest?_of_local (hlocal v hv)).symm.trans (hvalues v hv))

/-- A name is given values in three ways, one of which makes it a constant, so that a fourth has no
effect; another one through a handle; and a `pi` of the host does not get into the formula. -/
theorem latest?_of_compile_frozen :
    let before : List Action := [.assign "x" 1, .declare "y", .defineConstant "k" 10]
    let source := "k * x + y + pi"
    let later : List Action := [.write ⟨"x", 1⟩ 5, .evaluate "x +", .write ⟨"y", 2⟩ 3,
      .defineConstant "x" 7, .assign "x" 9, .assign "pi" 4, .declare "pi", .wait 8]
    let history := before ++ .compile source :: later
    let c' := (new {} 0).performAll history
    ∃ f, (((new {} 0).performAll before).compile source).1.outcome = .ok f ∧
      f.expr.text = "(3.141592653589793 + ((10 * x) + y))" ∧
      f.expr.readVariables = [⟨"x", 1⟩, ⟨"y", 2⟩] ∧
      (∀ v ∈ f.expr.readVariables, c'.findVariable? v.name = some v ∧
        (new {} 0).latest? v.name history = some (c'.workspace.store.value v)) ∧
      (new {} 0).latest? "x" history = some 7 ∧ (new {} 0).latest? "y" history = some 3 ∧
      (f.evaluate c'.workspace.store).outcome = .ok 76.1415926535898 := by
  intro before source later history c'
  -- A store that holds the latest values and the time, and nothing else.
  let s : Store Float := ⟨#[⟨0, false⟩, ⟨7, false⟩, ⟨3, false⟩], 8⟩
  have hcompile : (((new {} 0).performAll before).compile source).1.outcome.toOption.map
      (fun f => (f.expr.text, f.expr.readVariables, (f.expr.evaluate s).outcome.toOption)) =
        some ("(3.141592653589793 + ((10 * x) + y))", [⟨"x", 1⟩, ⟨"y", 2⟩],
          some 76.1415926535898) := by
    decide +kernel
  have hx : (new {} 0).latest? "x" history = some 7 := by decide +kernel
  have hy : (new {} 0).latest? "y" history = some 3 := by decide +kernel
  cases hf : (((new {} 0).performAll before).compile source).1.outcome with
  | error => simp [hf, Except.toOption] at hcompile
  | ok f =>
    simp only [hf, Except.toOption, Option.map_some, Option.some.injEq, Prod.mk.injEq] at hcompile
    obtain ⟨htext, hread, hvalue⟩ := hcompile
    obtain ⟨hlinked, hevaluate⟩ := @latest?_of_compile source f {} 0 before later hf
    refine ⟨f, rfl, htext, hread, hlinked, hx, hy, ?_⟩
    rw [hevaluate s (by decide +kernel) ?_]
    · cases h : (f.expr.evaluate s).outcome with
      | error => simp [h] at hvalue
      | ok x => simpa [h] using hvalue
    · rw [hread]
      simp only [List.forall_mem_cons, List.not_mem_nil, false_imp_iff, implies_true, and_true]
      exact ⟨hx, hy⟩

end Calculator

end Reckon
