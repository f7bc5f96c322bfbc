import Reckon.Expr.Dependencies
import Reckon.Proofs.Simplification
import Mathlib.Data.List.Basic

/-!
# What a value depends on

A tree is evaluated in the same way in any two stores that agree on the cells whose names are among
its dependencies. The list is made from all of the tree, so that nothing is missing from it that
evaluation may come to, whichever arguments the functions ask for. Functions must not look at
anything but their arguments.

A store knows its cells by numbers. That a cell has one name, under which every variable refers to
it, is said by a function from numbers to names.

## Main definitions

* `Expr.readVariables`, `Expr.calledFunctions` — what occurs in a tree, from left to right.
* `Variable.IsNamed`, `Expr.IsNamed` — variables have the names of their cells.

## Main statements

* `Expr.evaluate_eq_of_values` — of a store, evaluation sees the values of the variables in the
  tree.
* `Expr.evaluate_eq_of_dependencies` — a value depends on nothing but the dependencies of its tree.
-/

namespace Reckon

theorem mem_eraseRepsBy_loop {r : String → String → Bool} (hr : ∀ a b, r a b → a = b) (a : String)
    (names : List String) (seen : List String) (n : String) :
    n ∈ List.eraseRepsBy.loop r a names seen ↔ n = a ∨ n ∈ names ∨ n ∈ seen := by
  induction names generalizing a seen with
  | nil => simp [List.eraseRepsBy.loop, or_comm]
  | cons b names ih =>
    rw [List.eraseRepsBy.loop]
    split
    · next h =>
      obtain rfl := hr a b h
      simp only [ih, List.mem_cons]
      tauto
    · simp only [ih, List.mem_cons]
      tauto

/-- Sorting names loses none of them, and makes none up. -/
@[simp] theorem mem_sortedNames {names : List String} {n : String} :
    n ∈ sortedNames names ↔ n ∈ names := by
  have hsort : n ∈ names.mergeSort (fun a b => decide (a ≤ b)) ↔ n ∈ names := List.mem_mergeSort
  rw [sortedNames, ← hsort]
  cases names.mergeSort fun a b => decide (a ≤ b) with
  | nil => rfl
  | cons a names =>
    exact (mem_eraseRepsBy_loop (fun a b h => by simpa using h) a names [] n).trans (by simp)

variable {α : Type}

/-! ### What occurs in a tree -/

mutual

/-- The variables in a tree, from left to right. -/
def Expr.readVariables : Expr α → List Variable
  | .constant _ => []
  | .variable v => [v]
  | .binary _ l r _ => l.readVariables ++ r.readVariables
  | .call _ arguments => Expr.readVariablesOfAll arguments

/-- The variables in several trees. -/
def Expr.readVariablesOfAll : List (Expr α) → List Variable
  | [] => []
  | e :: es => e.readVariables ++ Expr.readVariablesOfAll es

end

mutual

/-- The functions that a tree calls, from left to right. -/
def Expr.calledFunctions : Expr α → List (Function α)
  | .constant _ => []
  | .variable _ => []
  | .binary _ l r _ => l.calledFunctions ++ r.calledFunctions
  | .call f arguments => f :: Expr.calledFunctionsOfAll arguments

/-- The functions that several trees call. -/
def Expr.calledFunctionsOfAll : List (Expr α) → List (Function α)
  | [] => []
  | e :: es => e.calledFunctions ++ Expr.calledFunctionsOfAll es

end

mutual

theorem Expr.variableNames_eq : ∀ e : Expr α, e.variableNames = e.readVariables.map Variable.name
  | .constant x => by rw [variableNames, readVariables, List.map_nil]
  | .variable v => by rw [variableNames, readVariables, List.map_singleton]
  | .binary op l r b => by
    rw [variableNames, readVariables, List.map_append, variableNames_eq l, variableNames_eq r]
  | .call f es => by rw [variableNames, readVariables, variableNamesOfAll_eq es]

theorem Expr.variableNamesOfAll_eq : ∀ es : List (Expr α),
    Expr.variableNamesOfAll es = (Expr.readVariablesOfAll es).map Variable.name
  | [] => by rw [variableNamesOfAll, readVariablesOfAll, List.map_nil]
  | e :: es => by
    rw [variableNamesOfAll, readVariablesOfAll, List.map_append, variableNames_eq e,
      variableNamesOfAll_eq es]

end

mutual

theorem Expr.functionNames_eq : ∀ e : Expr α, e.functionNames = e.calledFunctions.map Function.name
  | .constant x => by rw [functionNames, calledFunctions, List.map_nil]
  | .variable v => by rw [functionNames, calledFunctions, List.map_nil]
  | .binary op l r b => by
    rw [functionNames, calledFunctions, List.map_append, functionNames_eq l, functionNames_eq r]
  | .call f es => by rw [functionNames, calledFunctions, List.map_cons, functionNamesOfAll_eq es]

theorem Expr.functionNamesOfAll_eq : ∀ es : List (Expr α),
    Expr.functionNamesOfAll es = (Expr.calledFunctionsOfAll es).map Function.name
  | [] => by rw [functionNamesOfAll, calledFunctionsOfAll, List.map_nil]
  | e :: es => by
    rw [functionNamesOfAll, calledFunctionsOfAll, List.map_append, functionNames_eq e,
      functionNamesOfAll_eq es]

end

mutual

/-- What holds of all the functions that a tree calls. -/
theorem Expr.calls_iff {P : Function α → Prop} :
    ∀ {e : Expr α}, e.Calls P ↔ ∀ f ∈ e.calledFunctions, P f
  | .constant x => by simp [Calls, calledFunctions]
  | .variable v => by simp [Calls, calledFunctions]
  | .binary op l r b => by
    rw [Calls, calledFunctions, calls_iff, calls_iff]
    simp only [List.forall_mem_append]
  | .call f es => by
    rw [Calls, calledFunctions, allCall_iff]
    simp only [List.forall_mem_cons]

/-- What holds of all the functions that several trees call. -/
theorem Expr.allCall_iff {P : Function α → Prop} :
    ∀ {es : List (Expr α)}, Expr.AllCall P es ↔ ∀ f ∈ Expr.calledFunctionsOfAll es, P f
  | [] => by simp [AllCall, calledFunctionsOfAll]
  | e :: es => by
    rw [AllCall, calledFunctionsOfAll, calls_iff, allCall_iff]
    simp only [List.forall_mem_append]

end

namespace Dependencies

/-- Every variable in a tree is read. -/
theorem reads_ofExpr {e : Expr α} {v : Variable} (h : v ∈ e.readVariables) :
    (ofExpr e).reads v.name := by
  simp only [reads, ofExpr, List.contains_iff_mem, mem_sortedNames, e.variableNames_eq]
  exact List.mem_map_of_mem h

/-- Every function that occurs in a tree is called. -/
theorem calls_ofExpr {e : Expr α} {f : Function α} (h : f ∈ e.calledFunctions) :
    (ofExpr e).calls f.name := by
  simp only [calls, ofExpr, List.contains_iff_mem, mem_sortedNames, e.functionNames_eq]
  exact List.mem_map_of_mem h

end Dependencies

/-! ### Names of cells -/

/-- The name of a variable is that of its cell. -/
def Variable.IsNamed (names : Nat → String) (v : Variable) : Prop := v.name = names v.index

/-- The names of the variables in a tree are those of their cells. -/
def Expr.IsNamed (names : Nat → String) (e : Expr α) : Prop :=
  ∀ v ∈ e.readVariables, v.IsNamed names

/-! ### Evaluation in two stores -/

section Evaluate

variable [Arithmetic α] {s s' : Store α}

mutual

/-- Evaluation sees of a store no more than the values of the variables that occur in the tree, and
the time if a function asks for it. -/
theorem Expr.evaluate_eq_of_values : ∀ {e : Expr α},
    (e.Calls fun f => f.body.IsPure ∨ s.time = s'.time) →
      (∀ v ∈ e.readVariables, s.value v = s'.value v) → e.evaluate s = e.evaluate s'
  | .constant x, _, _ => by rw [evaluate, evaluate]
  | .variable v, _, h => by
    rw [readVariables] at h
    rw [evaluate, evaluate, h v (List.mem_singleton_self v)]
  | .binary op l r b, hc, h => by
    rw [Calls] at hc
    rw [readVariables, List.forall_mem_append] at h
    rw [evaluate_binary, evaluate_binary, evaluate_eq_of_values hc.1 h.1,
      evaluate_eq_of_values hc.2 h.2]
  | .call f es, hc, h => by
    rw [Calls] at hc
    rw [readVariables] at h
    rw [evaluate, evaluate, evaluateAll_eq_of_values hc.2 h]
    rcases hc.1 with hpure | htime
    · exact f.call_eq_of_isPure hpure s.time s'.time
    · rw [htime]

/-- The same for several trees. -/
theorem Expr.evaluateAll_eq_of_values : ∀ {es : List (Expr α)},
    (Expr.AllCall (fun f => f.body.IsPure ∨ s.time = s'.time) es) →
    (∀ v ∈ Expr.readVariablesOfAll es, s.value v = s'.value v) →
      Expr.evaluateAll s es = Expr.evaluateAll s' es
  | [], _, _ => by rw [evaluateAll, evaluateAll]
  | e :: es, hc, h => by
    rw [AllCall] at hc
    rw [readVariablesOfAll, List.forall_mem_append] at h
    rw [evaluateAll, evaluateAll, evaluate_eq_of_values hc.1 h.1, evaluateAll_eq_of_values hc.2 h.2]

end

/-- If all functions are pure, evaluation does not see the time. -/
theorem Expr.evaluate_congr {e : Expr α} (hc : e.Calls fun f => f.body.IsPure)
    (h : ∀ v ∈ e.readVariables, s.value v = s'.value v) : e.evaluate s = e.evaluate s' :=
  evaluate_eq_of_values (calls_iff.2 fun f hf => .inl (calls_iff.1 hc f hf)) h

/-- Two stores in which the cells with the names that a tree reads have the same values give it the
same value or error, if the functions that it calls are pure. So writing to a variable that is not
read makes no difference. -/
theorem Expr.evaluate_eq_of_dependencies {e : Expr α} {names : Nat → String}
    (hnamed : e.IsNamed names)
    (hpure : e.Calls fun f => (Dependencies.ofExpr e).calls f.name → f.body.IsPure) :
    (∀ s s' : Store α,
      (∀ v : Variable, v.IsNamed names → (Dependencies.ofExpr e).reads v.name →
        s.value v = s'.value v) →
      e.evaluate s = e.evaluate s') ∧
    ∀ (s : Store α) (v : Variable) (x : α), v.IsNamed names →
      (Dependencies.ofExpr e).reads v.name = false → e.evaluate (s.write v x) = e.evaluate s := by
  have hcalls : e.Calls fun f => f.body.IsPure :=
    calls_iff.2 fun f hf => calls_iff.1 hpure f hf (Dependencies.calls_ofExpr hf)
  refine ⟨fun s s' h => ?_, fun s v x hv hreads => ?_⟩
  · exact evaluate_congr hcalls fun v hv => h v (hnamed v hv) (Dependencies.reads_ofExpr hv)
  · refine evaluate_congr hcalls fun w hw => ?_
    have hne : v.index ≠ w.index := by
      intro hindex
      have hname : w.name = v.name := (hnamed w hw).trans (hindex ▸ hv.symm)
      simp [← hname, Dependencies.reads_ofExpr hw] at hreads
    rw [Store.value, Store.write, Store.cell_put_of_ne _ hne, Store.value]

/-- The branch that is not taken counts as read, and the error in the other one does not change with
the variable `z` or with the time. -/
theorem Expr.evaluate_eq_of_dependencies_conditional :
    let x : Variable := ⟨"x", 0⟩
    let y : Variable := ⟨"y", 1⟩
    let z : Variable := ⟨"z", 2⟩
    let names (i : Nat) : String := ["x", "y", "z"].getD i ""
    let fail : Function ℚ := ⟨"fail", .variadic fun _ => .result (.error (.reported "no")), true, 0⟩
    let store (z time : ℚ) : Store ℚ := ⟨#[⟨4, false⟩, ⟨5, false⟩, ⟨z, false⟩], time⟩
    let e : Expr ℚ := .call conditional [.binary .lessThan (.variable x) (.constant 3) false,
      .variable y, .call fail [.variable x]]
    e.IsNamed names ∧
      (e.Calls fun f => (Dependencies.ofExpr e).calls f.name → f.body.IsPure) ∧
      (Dependencies.ofExpr e).reads "y" ∧ (Dependencies.ofExpr e).reads "z" = false ∧
      ((store 1 0).write z 2).value z = 2 ∧
      e.evaluate (store 6 0) = e.evaluate (store 7 1) ∧
      e.evaluate ((store 1 0).write z 2) = e.evaluate (store 1 0) ∧
      (e.evaluate (store 1 0)).outcome = .error (.reported "no") := by
  intro x y z names fail store e
  have hnamed : e.IsNamed names := by
    simp [e, IsNamed, readVariables, readVariablesOfAll, Variable.IsNamed, names, x, y]
  have hpure : e.Calls fun f => (Dependencies.ofExpr e).calls f.name → f.body.IsPure := by
    have hfail : fail.body.IsPure := fun _ => trivial
    have hconditional : (conditional : Function ℚ).body.IsPure := isFoldable_conditional rfl
    simp [e, Calls, AllCall, hfail, hconditional]
  have hy : (Dependencies.ofExpr e).reads "y" := by
    simp [Dependencies.reads, Dependencies.ofExpr, e, variableNames, variableNamesOfAll, x, y]
  have hz : (Dependencies.ofExpr e).reads "z" = false := by
    simp [Dependencies.reads, Dependencies.ofExpr, e, variableNames, variableNamesOfAll, x, y]
  refine ⟨hnamed, hpure, hy, hz, by decide +kernel, ?_, ?_, by decide +kernel⟩
  · refine (evaluate_eq_of_dependencies hnamed hpure).1 _ _ ?_
    rintro ⟨name, _ | _ | _ | i⟩ hv hreads
    · rfl
    · rfl
    · obtain rfl : name = "z" := hv
      rw [hz] at hreads
      cases hreads
    · rfl
  · exact (evaluate_eq_of_dependencies hnamed hpure).2 _ z 2 rfl hz

end Evaluate

end Reckon
