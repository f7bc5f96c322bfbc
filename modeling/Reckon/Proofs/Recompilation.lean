import Reckon.Proofs.Reachable
import Reckon.Proofs.Resolution

/-!
# Compiling a formula once

A formula is compiled from what names are bound to and from the values of constants, and from
nothing else. None of this is changed by the actions of a host that only gives names values and
compiles and evaluates formulas: a name that is bound keeps its cell, names that are bound later do
not stand in front of it, and constants cannot be given values. So the formula that has been
compiled once is the one that would be compiled at any later time, and in every later state it has
the value that its text has.

## Main definitions

* `Action.IsRoutine` — giving a name a value, compiling, evaluating, and waiting.
* `Formula.IsTimeless` — a formula whose outcome does not depend on the time.

## Main statements

* `Expr.simplify_congr` — of a store, simplification sees the constants.
* `Workspace.Extends.compile` — a workspace that has grown compiles what it compiled before.
* `Calculator.extends_performAll` — routine actions make workspaces grow.
* `Calculator.Reachable.evaluate_eq_of_reads` — what formulas depend on; if they do not call `now`,
  this is not the time.
* `Calculator.evaluate_eq_of_compile` — compiling once is as good as compiling each time.
-/

namespace Reckon

/-! ### Simplification in two stores -/

section Simplify

variable {α : Type} [Arithmetic α] {s s' : Store α}

/-- A variable is a constant with the same value in both stores, or in neither. -/
def Store.AlikeAt (s s' : Store α) (v : Variable) : Prop :=
  s'.isConstant v = s.isConstant v ∧ (s.isConstant v → s'.value v = s.value v)

mutual

/-- Simplification sees of a store no more than which variables in the tree are constants and what
their values are. -/
theorem Expr.simplify_congr : ∀ {e : Expr α}, e.IsOver (s.AlikeAt s') Function.IsFoldable →
    e.simplify s' = e.simplify s
  | .constant x, _ => by rw [simplify, simplify]
  | .variable v, hv => by
    rw [isOver_variable] at hv
    rw [simplify, simplify, hv.1]
    split
    · next hconst => rw [hv.2 hconst]
    · rfl
  | .binary op l r b, hlr => by
    rw [isOver_binary] at hlr
    rw [simplify, simplify, simplify_congr hlr.1, simplify_congr hlr.2]
  | .call f es, hfes => by
    rw [isOver_call] at hfes
    rw [simplify, simplify, simplifyAll_congr hfes.2]
    refine bind_congr fun es' => ?_
    split
    · next hfold =>
      -- A call that is worked out has constants for arguments, and a pure function.
      obtain ⟨hdet, hconst⟩ : f.deterministic ∧ es'.all isConstant := by simpa using hfold
      rw [evaluateAll_of_isConstant s' s hconst,
        f.call_eq_of_isPure (hfes.1 hdet) s'.time s.time]
    · rfl

theorem Expr.simplifyAll_congr : ∀ {es : List (Expr α)},
    (∀ e ∈ es, e.IsOver (s.AlikeAt s') Function.IsFoldable) →
      Expr.simplifyAll s' es = Expr.simplifyAll s es
  | [], _ => by rw [simplifyAll, simplifyAll]
  | e :: es, hes => by
    rw [List.forall_mem_cons] at hes
    rw [simplifyAll, simplifyAll, simplify_congr hes.1, simplifyAll_congr hes.2]

end

/-- A store that keeps the constants of another one has no others among its cells. -/
theorem Store.Keeps.alikeAt (h : s.Keeps s') {v : Variable} (hv : v.index < s.cells.size) :
    s.AlikeAt s' v :=
  ⟨h.isConstant_eq hv, fun hconst => congrArg Cell.value (h.cell_eq hconst)⟩

end Simplify

/-! ### Compiling in a workspace that has grown -/

namespace Workspace

variable {α : Type} [Arithmetic α] [Numeral α] {w w' : Workspace α} {settings : Settings}
  {bytes : List UInt8} {e : Expr α}

/-- A workspace that has grown compiles what it compiled before. -/
theorem Extends.compile (h : w.Extends w') (hw : w.IsTidy)
    (hfoldable : ∀ {n f}, w.scope.findFunction? n = some f → f.IsFoldable)
    (hnamed : w.HoldsNamed settings) (hcompile : (w.compile settings { bytes }).1.outcome = .ok e) :
    (w'.compile settings { bytes }).1.outcome = .ok e := by
  obtain ⟨us, e₀, hus, hread, hsimplify⟩ := compile_eq_ok_iff.1 hcompile
  rw [hnamed.prepared_eq] at hread hsimplify
  refine compile_eq_ok_iff.2 ⟨us, e₀, hus, ?_, ?_⟩
  · rw [(hnamed.extends h).prepared_eq]
    exact hread.mono h.findVariable? h.findFunction?
  · have hover : ∀ e ∈ (Phrase.expression e₀).trees,
        e.IsOver (w.store.AlikeAt w'.store) Function.IsFoldable :=
      hread.isOver (fun hv => h.keeps.alikeAt (hw.index_lt hv)) hfoldable isFoldable_conditional
        isFoldable_absolute
    rw [(hnamed.extends h).prepared_eq,
      Expr.simplify_congr (hover e₀ (List.mem_singleton_self e₀))]
    exact hsimplify

/-- It makes no difference if the named constants have been bound before. -/
theorem compile_prepared (hw : w.IsTidy) (source : Source) :
    (w.prepared settings).compile settings source = w.compile settings source := by
  have h : ((w.prepared settings).prepared settings) = w.prepared settings :=
    (holdsNamed_prepared hw settings).prepared_eq
  show (((w.prepared settings).prepared settings).read _, (w.prepared settings).prepared settings) =
    ((w.prepared settings).read _, w.prepared settings)
  rw [h]

/-- A workspace grows when a value is given to a name that is not bound to a constant. -/
theorem IsSound.extends_assign {w : Workspace Float} (h : w.IsSound) {name : String} (x : Float)
    (hname : (w.scope.findVariable? name).any w.store.isConstant = false) :
    w.Extends (w.assign name x) := by
  cases hfind : w.scope.findVariable? name with
  | some v =>
    rw [hfind, Option.any_some] at hname
    rw [assign, createVariable_of_local (h.localVariable?_of_not_constant hfind hname)]
    exact .write x hname
  | none =>
    have hlocal : w.scope.localVariable? name = none := by
      rw [Scope.findVariable?_eq_or, Option.or_eq_none_iff] at hfind
      exact hfind.1
    rw [assign, createVariable_of_free hlocal]
    exact (Extends.bindNew _ hfind).trans (.write x (Store.isConstant_add w.store name _))

end Workspace

/-! ### Routine actions -/

/-- What hosts do all the time: they give names values, and compile and evaluate formulas. -/
def Action.IsRoutine : Action → Prop
  | assign .. | compile _ | evaluate _ | wait _ => True
  | defineConstant .. | declare _ | write .. | freeze .. => False

namespace Calculator

variable {c : Calculator}

theorem extends_perform {a : Action} (ha : a.IsRoutine) (hs : c.workspace.IsSound)
    (hn : c.workspace.HoldsNamed c.settings) : c.workspace.Extends (c.perform a).workspace := by
  cases a with
  | assign name x =>
    rw [perform]
    split
    · next h =>
      rw [(assign_eq_ok h).2]
      exact hs.extends_assign x (assign_eq_ok h).1
    · exact .refl _
  | compile source =>
    show c.workspace.Extends (c.workspace.prepared c.settings)
    rw [hn.prepared_eq]
    exact .refl _
  | evaluate source =>
    show c.workspace.Extends (c.workspace.prepared c.settings)
    rw [hn.prepared_eq]
    exact .refl _
  | wait t => exact .atTime _ t
  | _ => cases ha

/-- Once a formula has been compiled, routine actions make the workspace grow. -/
theorem extends_performAll {actions : List Action} (ha : ∀ a ∈ actions, a.IsRoutine)
    (hs : c.workspace.IsSound) (hn : c.workspace.HoldsNamed c.settings) :
    c.workspace.Extends (c.performAll actions).workspace ∧
      (c.performAll actions).settings = c.settings := by
  induction actions generalizing c with
  | nil => exact ⟨.refl _, rfl⟩
  | cons a actions ih =>
    rw [List.forall_mem_cons] at ha
    have hstep := extends_perform ha.1 hs hn
    have hn' : (c.perform a).workspace.HoldsNamed (c.perform a).settings := by
      rw [settings_perform]
      exact hn.extends hstep
    obtain ⟨hrest, hsettings⟩ := ih ha.2 (hs.changes (c.changes_perform a)) hn'
    exact ⟨hstep.trans hrest, hsettings.trans (c.settings_perform a)⟩

/-! ### Formulas -/

/-- A formula is a text and its simplified tree. -/
theorem compile_eq_ok {source : String} {f : Formula} :
    (c.compile source).1.outcome = .ok f ↔
      (c.workspace.compile c.settings (.ofString source)).1.outcome = .ok f.expr ∧
        f = ⟨source, f.expr, .ofExpr f.expr⟩ := by
  show ((c.workspace.compile c.settings (.ofString source)).1 >>= _).outcome = .ok f ↔ _
  rw [Run.outcome_bind_eq_ok]
  constructor
  · rintro ⟨e, he, h⟩
    obtain rfl := Except.ok.inj h
    exact ⟨he, rfl⟩
  · rintro ⟨he, hf⟩
    exact ⟨f.expr, he, congrArg Except.ok hf.symm⟩

/-- A formula stays what a text is compiled to. -/
theorem compile_performAll {source : String} {f : Formula} {actions : List Action}
    (ha : ∀ a ∈ actions, a.IsRoutine) (hs : c.workspace.IsSound)
    (hn : c.workspace.HoldsNamed c.settings) (hf : (c.compile source).1.outcome = .ok f) :
    ((c.performAll actions).compile source).1.outcome = .ok f := by
  obtain ⟨hextends, hsettings⟩ := extends_performAll ha hs hn
  rw [compile_eq_ok] at hf ⊢
  rw [hsettings]
  refine ⟨hextends.compile hs.tidy (fun h => ?_) hn hf.1, hf.2⟩
  exact Builtins.isFoldable_of_mem_functions (hs.mem_functions h)

/-- A text has the value of the formula that it is compiled to. -/
theorem outcome_evaluate {source : String} {f : Formula} (hn : c.workspace.HoldsNamed c.settings)
    (hf : (c.compile source).1.outcome = .ok f) :
    (c.evaluate source).1.outcome = (f.evaluate c.workspace.store).outcome := by
  have hstore : (c.compile source).2.workspace.store = c.workspace.store :=
    congrArg Workspace.store hn.prepared_eq
  show ((c.compile source).1 >>= fun f => f.evaluate (c.compile source).2.workspace.store).outcome =
    _
  rw [Run.outcome_bind, hf, hstore]
  rfl

end Calculator

/-- The outcome of a formula does not depend on the time. -/
def Formula.IsTimeless (f : Formula) : Prop :=
  ∀ (s : Store Float) (t : Float),
    (f.evaluate { s with time := t }).outcome = (f.evaluate s).outcome

/-! ### What formulas depend on -/

/-- All standard functions but `now` are pure. -/
theorem Builtins.isPure_of_mem_functions {f : Function Float} (h : f ∈ functions)
    (hname : f.name ≠ "now") : f.body.IsPure := by
  have hnow : ∀ f ∈ functions, f.name ≠ "now" → f.deterministic := by decide
  exact isFoldable_of_mem_functions h (hnow f h hname)

/-- A formula that does not call `now` sees of a store no more than the values of the variables that
it reads, as they are bound when it is compiled. -/
theorem Calculator.Reachable.evaluate_eq_of_reads {c : Calculator} {source : String} {f : Formula}
    (hc : c.Reachable) (hf : (c.compile source).1.outcome = .ok f)
    (hnow : f.dependencies.calls "now" = false) {s s' : Store Float}
    (h : ∀ {n v}, (c.compile source).2.findVariable? n = some v → f.dependencies.reads n →
      s.value v = s'.value v) :
    f.evaluate s = f.evaluate s' := by
  obtain ⟨hcompile, hformula⟩ := compile_eq_ok.1 hf
  have hdependencies : f.dependencies = .ofExpr f.expr := congrArg Formula.dependencies hformula
  obtain ⟨us, e₀, -, hread, hsimplify⟩ := Workspace.compile_eq_ok_iff.1 hcompile
  have hs := hc.isSound.changes (Workspace.changes_prepared _ c.settings)
  have hover := hread.isOver (V := fun v => ∃ n, (c.compile source).2.findVariable? n = some v)
    (P := fun g => g.name ≠ "now" → g.body.IsPure) (fun hv => ⟨_, hv⟩)
    (fun h => Builtins.isPure_of_mem_functions (hs.mem_functions h))
    (fun _ => isFoldable_conditional rfl) (fun _ => isFoldable_absolute rfl)
  have hover := (hover e₀ (List.mem_singleton_self e₀)).simplify hsimplify
  refine Expr.evaluate_congr (Expr.calls_iff.2 fun g hg => ?_) fun v hv => ?_
  · refine hover.of_called g hg fun hname => ?_
    have hcalled := Dependencies.calls_ofExpr hg
    rw [← hdependencies, hname, hnow] at hcalled
    cases hcalled
  · obtain ⟨n, hn⟩ := hover.of_read v hv
    have hreads := Dependencies.reads_ofExpr hv
    rw [← hdependencies, hs.tidy.name_eq hn] at hreads
    exact h hn hreads

/-- A formula that does not call `now` does not depend on the time. -/
theorem Calculator.Reachable.isTimeless {c : Calculator} {source : String} {f : Formula}
    (hc : c.Reachable) (hf : (c.compile source).1.outcome = .ok f)
    (hnow : f.dependencies.calls "now" = false) : f.IsTimeless :=
  fun _ _ => congrArg Run.outcome (hc.evaluate_eq_of_reads hf hnow fun _ _ => rfl)

/-! ### Compiling once -/

namespace Calculator

variable {c : Calculator}

/-- After routine actions, a formula that has been compiled is compiled to the same formula once
more, and its value is that of its text, whatever values variables have been given. The text may be
evaluated at another time if the formula does not depend on the time. -/
theorem evaluate_eq_of_compile {source : String} {f : Formula} (hc : c.Reachable)
    (hf : (c.compile source).1.outcome = .ok f) {later : List Action}
    (hlater : ∀ a ∈ later, a.IsRoutine) :
    let c' := (c.compile source).2.performAll later
    (c'.compile source).1.outcome = .ok f ∧
      ∀ t t', t = t' ∨ f.IsTimeless →
        ((c'.atTime t).evaluate source).1.outcome =
          (f.evaluate (c'.atTime t').workspace.store).outcome := by
  intro c'
  have hs := hc.isSound
  have hprepared : (c.compile source).2.workspace = c.workspace.prepared c.settings := rfl
  have hs' : (c.compile source).2.workspace.IsSound := hs.changes (Workspace.changes_prepared _ _)
  have hn : (c.compile source).2.workspace.HoldsNamed c.settings :=
    Workspace.holdsNamed_prepared hs.tidy _
  have hf' : ((c.compile source).2.compile source).1.outcome = .ok f := by
    rw [compile_eq_ok] at hf ⊢
    refine ⟨?_, hf.2⟩
    rw [hprepared]
    exact (congrArg (fun p => p.1.outcome) (Workspace.compile_prepared hs.tidy _)).trans hf.1
  refine ⟨compile_performAll hlater hs' hn hf', fun t t' ht => ?_⟩
  -- Waiting is one more action.
  have hwait : c'.atTime t = (c.compile source).2.performAll (later ++ [.wait t]) := by
    rw [performAll, List.foldl_append]
    rfl
  have hroutine : ∀ a ∈ later ++ [.wait t], a.IsRoutine :=
    List.forall_mem_append.2 ⟨hlater, by simp [Action.IsRoutine]⟩
  obtain ⟨hextends, hsettings⟩ := extends_performAll hroutine hs' hn
  have hvalue : ((c'.atTime t).evaluate source).1.outcome =
      (f.evaluate (c'.atTime t).workspace.store).outcome := by
    refine outcome_evaluate ?_ ?_
    · rw [hwait, hsettings]
      exact hn.extends hextends
    · rw [hwait]
      exact compile_performAll hroutine hs' hn hf'
  rw [hvalue]
  rcases ht with rfl | htimeless
  · rfl
  · exact (htimeless c'.workspace.store t).trans (htimeless c'.workspace.store t').symm

end Calculator

/-- The host's own `e` has been made a constant by compiling, and cannot be given a value any more;
`x` has another value than when the formula was compiled, so that the other branch is taken. -/
theorem Calculator.evaluate_eq_of_compile_branches :
    let c := (new {} 0).performAll [.assign "x" 3, .assign "e" 1, .declare "y"]
    let source := "x * e - (x > 4 ? y + pi : sqrt(4))"
    let later : List Action :=
      [.assign "x" 5, .assign "e" 1, .compile "1 +", .evaluate "tau", .assign "z" 2, .wait 7]
    let c' := (c.compile source).2.performAll later
    ∃ f, c.Reachable ∧ (c.compile source).1.outcome = .ok f ∧
      f.expr.text = "((2.718281828459045 * x) - if((x > 4), (3.141592653589793 + y), 2))" ∧
      (∀ a ∈ later, a.IsRoutine) ∧ f.IsTimeless ∧ (c'.compile source).1.outcome = .ok f ∧
      ((c'.atTime 8).evaluate source).1.outcome =
        (f.evaluate (c'.atTime 9).workspace.store).outcome := by
  intro c source later c'
  have hc : c.Reachable := (Reachable.new {} 0).performAll _
  have htext : ((c.compile source).1.outcome.toOption.map fun f =>
      (f.expr.text, f.dependencies.calls "now")) =
        some ("((2.718281828459045 * x) - if((x > 4), (3.141592653589793 + y), 2))", false) := by
    decide +kernel
  have hlater : ∀ a ∈ later, a.IsRoutine := by simp [later, Action.IsRoutine]
  cases hf : (c.compile source).1.outcome with
  | error => simp [hf, Except.toOption] at htext
  | ok f =>
    simp only [hf, Except.toOption, Option.map_some, Option.some.injEq, Prod.mk.injEq] at htext
    have htimeless := hc.isTimeless hf htext.2
    obtain ⟨hcompile, hvalue⟩ := evaluate_eq_of_compile hc hf hlater
    exact ⟨f, hc, rfl, htext.1, hlater, htimeless, hcompile, hvalue 8 9 (.inr htimeless)⟩

end Reckon
