import Reckon.Proofs.Occurrences
import Reckon.Proofs.Recompilation

/-!
# Formulas that depend on nothing

A formula is called constant if it has been folded to a single number, and independent if the list
of its dependencies is empty. The first is a matter of simplification, the second of what occurs in
the tree that is left. They agree, since a normal form without variables and calls has nothing but
operators between constants in it, and these are folded. The conditions and the bars of a text are
calls as well, so that they make no exception.

## Main statements

* `Expr.IsNormal.isConstant_iff_ofExpr` — the constants are the normal forms without dependencies.
* `Calculator.isConstant_iff_varying` — a text compiles to a constant if nothing in it varies.
* `Calculator.isConstant_iff_isEmpty` — the two notions agree, and such a formula has one value.
-/

namespace Reckon

variable {α : Type}

theorem sortedNames_eq_nil_iff {names : List String} : sortedNames names = [] ↔ names = [] := by
  simp only [List.eq_nil_iff_forall_not_mem, mem_sortedNames]

/-- There are no dependencies if and only if there are neither variables nor calls. -/
theorem Dependencies.isEmpty_ofExpr {e : Expr α} :
    (ofExpr e).isEmpty ↔ e.readVariables = [] ∧ e.calledFunctions = [] := by
  simp only [isEmpty, ofExpr, Bool.and_eq_true, List.isEmpty_iff, sortedNames_eq_nil_iff,
    e.variableNames_eq, e.functionNames_eq, List.map_eq_nil_iff]

namespace Expr

/-- A constant has one value in every store. -/
theorem exists_evaluate_of_isConstant [Arithmetic α] {e : Expr α} (h : e.isConstant) :
    ∃ x, ∀ s : Store α, e.evaluate s = pure x := by
  cases e with
  | constant x => exact ⟨x, fun s => evaluate_constant s x⟩
  | _ => cases h

variable [Arithmetic α] {s : Store α} {e : Expr α}

/-- A tree without variables and calls is closed. -/
theorem isClosed_of_eq_nil : ∀ {e : Expr α}, e.readVariables = [] → e.calledFunctions = [] →
    e.isClosed s
  | .constant x, _, _ => by rw [isClosed]
  | .variable v, hv, _ => by simp [readVariables] at hv
  | .binary op l r b, hv, hf => by
    rw [readVariables, List.append_eq_nil_iff] at hv
    rw [calledFunctions, List.append_eq_nil_iff] at hf
    rw [isClosed, isClosed_of_eq_nil hv.1 hf.1, isClosed_of_eq_nil hv.2 hf.2, Bool.and_self]
  | .call f es, _, hf => by simp [calledFunctions] at hf

/-- A normal form is a constant if and only if it is closed. -/
theorem IsNormal.isConstant_eq (h : e.IsNormal s) : e.isConstant = e.isClosed s :=
  isConstant_of_simplify (congrArg Run.outcome (simplify_of_isNormal h))

/-- A normal form is a constant if and only if it has no dependencies. -/
theorem IsNormal.isConstant_iff_ofExpr (h : e.IsNormal s) :
    e.isConstant ↔ (Dependencies.ofExpr e).isEmpty := by
  rw [Dependencies.isEmpty_ofExpr]
  constructor
  · intro hconst
    cases e with
    | constant x => exact ⟨rfl, rfl⟩
    | _ => cases hconst
  · rintro ⟨hv, hf⟩
    rw [h.isConstant_eq]
    exact isClosed_of_eq_nil hv hf

end Expr

namespace Calculator

variable {c : Calculator} {source : String} {f : Formula}

/-- The tree of a formula is what the text was read as, simplified. -/
theorem exists_reads_of_compile (hf : (c.compile source).1.outcome = .ok f) :
    ∃ us e, Tokenized c.settings.pipeBrackets (Source.plain (Source.ofString source).bytes) us ∧
      Reads (c.compile source).2.workspace.scope (.expression e) us [] ∧
        (e.simplify (c.compile source).2.workspace.store).outcome = .ok f.expr :=
  Workspace.compile_eq_ok_iff.1 (compile_eq_ok.1 hf).1

/-- A text compiles to a constant if and only if nothing varies in the tree that it is read as. -/
theorem isConstant_iff_varying (hf : (c.compile source).1.outcome = .ok f) :
    ∃ us e, Tokenized c.settings.pipeBrackets (Source.plain (Source.ofString source).bytes) us ∧
      Reads (c.compile source).2.workspace.scope (.expression e) us [] ∧
        (f.isConstant ↔ e.varying (c.compile source).2.workspace.store = []) := by
  obtain ⟨us, e, htokens, hreads, hsimplify⟩ := exists_reads_of_compile hf
  exact ⟨us, e, htokens, hreads, Expr.isConstant_iff_of_simplify hsimplify⟩

/-- A formula is constant if and only if it has no dependencies. Such a formula has one value,
whatever becomes of the calculator. -/
theorem isConstant_iff_isEmpty (hf : (c.compile source).1.outcome = .ok f) :
    (f.isConstant ↔ f.dependencies.isEmpty) ∧
      (f.isConstant → ∃ x, ∀ s : Store Float, f.evaluate s = pure x) := by
  obtain ⟨us, e, -, -, hsimplify⟩ := exists_reads_of_compile hf
  have hdependencies : f.dependencies = .ofExpr f.expr :=
    congrArg Formula.dependencies (compile_eq_ok.1 hf).2
  refine ⟨?_, Expr.exists_evaluate_of_isConstant⟩
  rw [hdependencies]
  exact (Expr.isNormal_simplified e hsimplify).isConstant_iff_ofExpr

/-- A condition, bars and calls are folded with a constant of the host, unless the branch that is
not taken depends on the clock. -/
theorem isConstant_iff_isEmpty_folded :
    let c := (new {} 0).performAll [.defineConstant "k" 2]
    let compiled (source : String) := (c.compile source).1.outcome
    (∃ f, compiled "|k - 5| > 2 ? max(k, 3) + 4 : now()" = .ok f ∧ f.isConstant = false ∧
      f.dependencies.isEmpty = false) ∧
    ∃ f, compiled "|k - 5| > 2 ? max(k, 3) + 4 : 1" = .ok f ∧ f.isConstant ∧
      f.dependencies.isEmpty ∧ ∃ x, ∀ s : Store Float, f.evaluate s = pure x := by
  intro c compiled
  have hlive : (compiled "|k - 5| > 2 ? max(k, 3) + 4 : now()").toOption.map
      (fun f => f.isConstant) = some false := by
    decide +kernel
  have hfolded : (compiled "|k - 5| > 2 ? max(k, 3) + 4 : 1").toOption.map
      (fun f => f.isConstant) = some true := by
    decide +kernel
  refine ⟨?_, ?_⟩
  · cases hf : compiled "|k - 5| > 2 ? max(k, 3) + 4 : now()" with
    | error => simp [hf, Except.toOption] at hlive
    | ok f =>
      have hconst : f.isConstant = false := by simpa [hf, Except.toOption] using hlive
      refine ⟨f, rfl, hconst, Bool.eq_false_iff.2 fun h => ?_⟩
      simp [(isConstant_iff_isEmpty hf).1.2 h] at hconst
  · cases hf : compiled "|k - 5| > 2 ? max(k, 3) + 4 : 1" with
    | error => simp [hf, Except.toOption] at hfolded
    | ok f =>
      have hconst : f.isConstant := by simpa [hf, Except.toOption] using hfolded
      obtain ⟨hiff, hvalue⟩ := isConstant_iff_isEmpty hf
      exact ⟨f, rfl, hconst, hiff.1 hconst, hvalue hconst⟩

end Calculator

end Reckon
