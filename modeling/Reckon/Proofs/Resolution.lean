import Reckon.Proofs.Dependence
import Reckon.Proofs.Reading

/-!
# Where names come from

The tree of a formula holds no variables and no functions but those that its names are bound to in
the scope, apart from the two functions that conditions and bars stand for. It is read in the same
way in every scope in which these names are bound alike. Simplification adds nothing to what occurs
in a tree.

## Main definitions

* `Expr.IsOver` — what holds of all the variables and functions that occur in a tree.

## Main statements

* `Reads.mono` — more bindings do not change a reading.
* `Reads.isOver` — what is read is made of what names are bound to.
* `Expr.IsOver.simplify` — simplification keeps what holds of all variables and functions.
-/

namespace Reckon

variable {α : Type}

namespace Expr

theorem readVariablesOfAll_eq (es : List (Expr α)) :
    readVariablesOfAll es = es.flatMap readVariables := by
  induction es with
  | nil => simp [readVariablesOfAll]
  | cons e es ih => simp [readVariablesOfAll, ih]

theorem calledFunctionsOfAll_eq (es : List (Expr α)) :
    calledFunctionsOfAll es = es.flatMap calledFunctions := by
  induction es with
  | nil => simp [calledFunctionsOfAll]
  | cons e es ih => simp [calledFunctionsOfAll, ih]

/-- All variables that occur in a tree satisfy `V`, and all functions `P`. -/
structure IsOver (V : Variable → Prop) (P : Function α → Prop) (e : Expr α) : Prop where
  of_read : ∀ v ∈ e.readVariables, V v
  of_called : ∀ f ∈ e.calledFunctions, P f

variable {V : Variable → Prop} {P : Function α → Prop} {e l r : Expr α}

@[simp] theorem isOver_constant (x : α) : (constant x).IsOver V P := by
  constructor <;> simp [readVariables, calledFunctions]

@[simp] theorem isOver_variable {v : Variable} : (Expr.variable v : Expr α).IsOver V P ↔ V v := by
  constructor
  · intro h
    exact h.of_read v (by simp [readVariables])
  · intro h
    constructor <;> simp [readVariables, calledFunctions, h]

@[simp] theorem isOver_binary {op : Operator} {b : Bool} :
    (binary op l r b).IsOver V P ↔ l.IsOver V P ∧ r.IsOver V P := by
  constructor
  · rintro ⟨hv, hf⟩
    rw [readVariables, List.forall_mem_append] at hv
    rw [calledFunctions, List.forall_mem_append] at hf
    exact ⟨⟨hv.1, hf.1⟩, ⟨hv.2, hf.2⟩⟩
  · rintro ⟨hl, hr⟩
    refine ⟨?_, ?_⟩
    · rw [readVariables]
      exact List.forall_mem_append.2 ⟨hl.of_read, hr.of_read⟩
    · rw [calledFunctions]
      exact List.forall_mem_append.2 ⟨hl.of_called, hr.of_called⟩

@[simp] theorem isOver_call {f : Function α} {es : List (Expr α)} :
    (call f es).IsOver V P ↔ P f ∧ ∀ e ∈ es, e.IsOver V P := by
  constructor
  · rintro ⟨hv, hf⟩
    rw [readVariables, readVariablesOfAll_eq] at hv
    rw [calledFunctions, calledFunctionsOfAll_eq, List.forall_mem_cons] at hf
    exact ⟨hf.1, fun e he => ⟨fun v h => hv v (List.mem_flatMap_of_mem he h),
      fun g h => hf.2 g (List.mem_flatMap_of_mem he h)⟩⟩
  · rintro ⟨hf, hes⟩
    refine ⟨?_, ?_⟩
    · rw [readVariables, readVariablesOfAll_eq]
      intro v hv
      obtain ⟨e, he, hv⟩ := List.mem_flatMap.1 hv
      exact (hes e he).of_read v hv
    · rw [calledFunctions, calledFunctionsOfAll_eq]
      refine List.forall_mem_cons.2 ⟨hf, fun g hg => ?_⟩
      obtain ⟨e, he, hg⟩ := List.mem_flatMap.1 hg
      exact (hes e he).of_called g hg

theorem isOver_sealTop : e.sealTop.IsOver V P ↔ e.IsOver V P := by
  cases e with
  | binary => rw [sealTop, isOver_binary, isOver_binary]
  | _ => rfl

theorem IsOver.nestLeft {tail : List (Operator × Expr α)} (h : e.IsOver V P)
    (ht : ∀ p ∈ tail, p.2.IsOver V P) : (nestLeft e tail).IsOver V P := by
  induction tail generalizing e with
  | nil => exact h
  | cons p tail ih =>
    obtain ⟨hp, ht⟩ := List.forall_mem_cons.1 ht
    exact ih (isOver_binary.2 ⟨h, hp⟩) ht

theorem IsOver.nestRight {tail : List (Operator × Expr α)} (h : e.IsOver V P)
    (ht : ∀ p ∈ tail, p.2.IsOver V P) : (nestRight e tail).IsOver V P := by
  induction tail generalizing e with
  | nil => exact h
  | cons p tail ih =>
    obtain ⟨hp, ht⟩ := List.forall_mem_cons.1 ht
    exact isOver_binary.2 ⟨h, ih hp ht⟩

/-- The tree of a chain is made of its operands. -/
theorem IsOver.nest {rank : Rank} {tail : List (Operator × Expr α)} (h : e.IsOver V P)
    (ht : ∀ p ∈ tail, p.2.IsOver V P) : (rank.nest e tail).IsOver V P := by
  cases rank with
  | power => exact h.nestRight ht
  | _ => exact h.nestLeft ht

end Expr

/-! ### Reading -/

/-- The trees of what is read. -/
def Phrase.trees : Phrase α → List (Expr α)
  | expression e => [e]
  | chain _ first tail => first :: tail.map Prod.snd
  | operand _ e => [e]
  | atom e => [e]
  | arguments es => es
  | moreArguments es => es

section Reading

variable [Arithmetic α] [Numeral α] {scope scope' : Scope α} {ph : Phrase α} {ts rest : List Token}

/-- A reading is one in every scope in which the names that are bound are bound alike. -/
theorem Reads.mono (h : Reads scope ph ts rest)
    (hv : ∀ {n v}, scope.findVariable? n = some v → scope'.findVariable? n = some v)
    (hf : ∀ {n f}, scope.findFunction? n = some f → scope'.findFunction? n = some f) :
    Reads scope' ph ts rest := by
  induction h with
  | unconditional _ ih => exact .unconditional ih
  | conditional _ hq _ hc _ ih iha ihb => exact .conditional ih hq iha hc ihb
  | single _ ih => exact .single ih
  | more _ ht hop _ ih ihr => exact .more ih ht hop ihr
  | glued _ ht _ ih ihr => exact .glued ih ht ihr
  | inner hr _ ih => exact .inner hr ih
  | innermost _ ih => exact .innermost ih
  | negation ht _ ih => exact .negation ht ih
  | plus hp ht _ ih => exact .plus hp ht ih
  | brackets ht _ hu ih => exact .brackets ht ih hu
  | bars ht _ hu ih => exact .bars ht ih hu
  | call ht hu hfind _ hw ih => exact .call ht hu (hf hfind) ih hw
  | named ht hfind => exact .named ht (hv hfind)
  | number ht hd => exact .number ht hd
  | scaled ht hd hq hk => exact .scaled ht hd hq hk
  | noArguments => exact .noArguments
  | someArguments _ _ ih ihs => exact .someArguments ih ihs
  | noMore => exact .noMore
  | oneMore ht _ _ ih ihs => exact .oneMore ht ih ihs

/-- What is read is made of what names are bound to, of conditions and of absolute values. -/
theorem Reads.isOver {V : Variable → Prop} {P : Function α → Prop} (h : Reads scope ph ts rest)
    (hv : ∀ {n v}, scope.findVariable? n = some v → V v)
    (hf : ∀ {n f}, scope.findFunction? n = some f → P f) (hc : P Reckon.conditional)
    (ha : P absolute) :
    ∀ e ∈ ph.trees, e.IsOver V P := by
  induction h with
  | unconditional _ ih =>
    simp only [Phrase.trees, List.forall_mem_cons, List.forall_mem_map] at ih
    simpa [Phrase.trees] using ih.1.nest ih.2
  | conditional _ _ _ _ _ ih iha ihb =>
    simp only [Phrase.trees, List.forall_mem_cons, List.forall_mem_map] at ih iha ihb
    simpa [Phrase.trees, hc] using ⟨ih.1.nest ih.2, iha.1, ihb.1⟩
  | single _ ih => simpa [Phrase.trees] using ih
  | more _ _ _ _ ih ihr =>
    simp only [Phrase.trees, List.forall_mem_cons, List.map_cons] at ih ihr ⊢
    exact ⟨ih.1, ihr⟩
  | glued _ _ _ ih ihr =>
    simp only [Phrase.trees, List.forall_mem_cons, List.map_cons] at ih ihr ⊢
    exact ⟨ih.1, ihr⟩
  | inner _ _ ih =>
    simp only [Phrase.trees, List.forall_mem_cons, List.forall_mem_map] at ih
    simpa [Phrase.trees] using ih.1.nest ih.2
  | innermost _ ih => exact ih
  | negation _ _ ih => simpa [Phrase.trees] using ih
  | plus _ _ _ ih => exact ih
  | brackets _ _ _ ih => simpa [Phrase.trees, Expr.isOver_sealTop] using ih
  | bars _ _ _ ih => simpa [Phrase.trees, ha] using ih
  | call _ _ hfind _ _ ih => simpa [Phrase.trees, hf hfind] using ih
  | named _ hfind => simpa [Phrase.trees] using hv hfind
  | number => simp [Phrase.trees]
  | scaled => simp [Phrase.trees]
  | noArguments => simp [Phrase.trees]
  | someArguments _ _ ih ihs =>
    simp only [Phrase.trees, List.forall_mem_cons] at ih ihs ⊢
    exact ⟨ih.1, ihs⟩
  | noMore => simp [Phrase.trees]
  | oneMore _ _ _ ih ihs =>
    simp only [Phrase.trees, List.forall_mem_cons] at ih ihs ⊢
    exact ⟨ih.1, ihs⟩

end Reading

/-! ### Simplification -/

section Simplify

variable [Arithmetic α] {s : Store α} {V : Variable → Prop} {P : Function α → Prop}

namespace Expr

theorem IsOver.regroup {op : Operator} {l r : Expr α} (hl : l.IsOver V P) (hr : r.IsOver V P)
    (b : Bool) : (regroup op l r b).IsOver V P := by
  unfold Expr.regroup
  split
  · rw [isOver_binary] at hr
    split
    · split
      · simpa using hr.2
      · simpa using ⟨hl, hr.2⟩
    · simpa using ⟨hl, hr.2⟩
  · simpa using ⟨hl, hr⟩

theorem IsOver.gather {op : Operator} {l r : Expr α} (hl : l.IsOver V P) (hr : r.IsOver V P)
    (b : Bool) : (gather op l r b).IsOver V P := by
  unfold Expr.gather
  split
  · exact isOver_constant _
  · split
    · exact .regroup (isOver_constant _) hl b
    · simpa using hl
  · exact hl.regroup hr b

mutual

/-- Simplification adds neither variables nor functions to a tree. -/
theorem IsOver.simplify : ∀ {e e' : Expr α}, e.IsOver V P → (e.simplify s).outcome = .ok e' →
    e'.IsOver V P
  | .constant x, e', _, h => by
    rw [Expr.simplify] at h
    obtain rfl := Except.ok.inj h
    exact isOver_constant x
  | .variable v, e', hv, h => by
    rw [Expr.simplify] at h
    obtain rfl := Except.ok.inj h
    split
    · exact isOver_constant _
    · exact hv
  | .binary op l r b, e', hlr, h => by
    rw [isOver_binary] at hlr
    rw [Expr.simplify] at h
    obtain ⟨l', hl, h⟩ := Run.outcome_bind_eq_ok.1 h
    obtain ⟨r', hr, h⟩ := Run.outcome_bind_eq_ok.1 h
    obtain rfl := Except.ok.inj h
    exact (hlr.1.simplify hl).gather (hlr.2.simplify hr) b
  | .call f es, e', hfes, h => by
    rw [isOver_call] at hfes
    rw [Expr.simplify] at h
    obtain ⟨es', hes, h⟩ := Run.outcome_bind_eq_ok.1 h
    have ih := isOver_simplifyAll hfes.2 hes
    split at h
    · obtain ⟨x, -, h⟩ := Run.outcome_bind_eq_ok.1 h
      obtain rfl := Except.ok.inj h
      exact isOver_constant x
    · obtain rfl := Except.ok.inj h
      exact isOver_call.2 ⟨hfes.1, ih⟩

theorem isOver_simplifyAll : ∀ {es es' : List (Expr α)}, (∀ e ∈ es, e.IsOver V P) →
    (simplifyAll s es).outcome = .ok es' → ∀ e ∈ es', e.IsOver V P
  | [], es', _, h => by
    rw [simplifyAll] at h
    obtain rfl := Except.ok.inj h
    simp
  | e :: es, es', hes, h => by
    rw [List.forall_mem_cons] at hes
    rw [simplifyAll] at h
    obtain ⟨e', he, h⟩ := Run.outcome_bind_eq_ok.1 h
    obtain ⟨es'', hes', h⟩ := Run.outcome_bind_eq_ok.1 h
    obtain rfl := Except.ok.inj h
    exact List.forall_mem_cons.2 ⟨hes.1.simplify he, isOver_simplifyAll hes.2 hes'⟩

end

end Expr

end Simplify

end Reckon
