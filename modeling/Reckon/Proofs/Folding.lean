import Reckon.Calculator
import Reckon.Proofs.Agreement
import Reckon.Proofs.Compiling

/-!
# What simplification works out

A part of a tree is closed if it is made of constants, operators and calls of deterministic
functions. Simplification works out every closed call, from the leaves up and from left to right,
and it fails if and only if one of them fails, with the error of the first that does. Whether the
call is of any use is not considered. A tree may have a value all the same, if a function does not
ask for the argument that the call is in, as a condition does not ask for one of its branches, or if
it can do without. So a tree that has a value is rejected if and only if a closed call fails, and
then that is a call that the value does not need.

## Main definitions

* `Expr.isClosed`, `Expr.closedCalls` — the calls that are worked out, in order.
* `Function.Requires` — a call fails if a certain argument does.
* `Expr.Needs` — a tree fails if a certain part of it does.

## Main statements

* `Expr.outcome_simplify_eq_error_iff` — when simplification fails, and with which error.
* `Expr.Needs.fails` — a failure of a part that is needed is a failure of the whole.
* `Expr.outcome_simplify_eq_error_iff_of_evaluate` — which trees with a value are rejected.
* `Calculator.compile_branch_not_taken` — a formula with a value that does not compile.
-/

namespace Reckon

variable {α : Type}

namespace Run

variable {β : Type}

/-- There is a result. -/
def Succeeds (r : Run β) : Prop := ∃ b, r.outcome = .ok b

/-- The error of a run that fails. -/
def error? (r : Run β) : Option Error :=
  match r.outcome with
  | .ok _ => none
  | .error e => some e

/-- There is an error. -/
def Fails (r : Run β) : Prop := ∃ e, r.outcome = .error e

theorem not_succeeds_of_fails {r : Run β} (h : r.Fails) : ¬ r.Succeeds := by
  obtain ⟨e, he⟩ := h
  rintro ⟨b, hb⟩
  rw [he] at hb
  cases hb

theorem not_fails_pure (b : β) : ¬ (pure b : Run β).Fails := by
  rintro ⟨e, he⟩
  cases he

theorem fails_bind {γ : Type} {r : Run β} {f : β → Run γ} :
    (r >>= f).Fails ↔ r.Fails ∨ ∃ b, r.outcome = .ok b ∧ (f b).Fails := by
  unfold Fails
  rw [outcome_bind]
  cases r.outcome with
  | ok b => simp [Except.bind]
  | error e => simp [Except.bind]

end Run

variable [Arithmetic α] {s : Store α}

/-! ### Closed calls -/

mutual

/-- Whether a tree is made of nothing but constants, operators and calls of deterministic
functions. -/
def Expr.isClosed (s : Store α) : Expr α → Bool
  | .constant _ => true
  | .variable v => s.isConstant v
  | .binary _ l r _ => l.isClosed s && r.isClosed s
  | .call f arguments => f.deterministic && Expr.allClosed s arguments

/-- Whether several trees are all closed. -/
def Expr.allClosed (s : Store α) : List (Expr α) → Bool
  | [] => true
  | e :: es => e.isClosed s && Expr.allClosed s es

end

mutual

/-- The closed calls in a tree: those among the arguments of a call come before it, and those in the
left operand before those in the right one. -/
def Expr.closedCalls (s : Store α) : Expr α → List (Expr α)
  | .constant _ => []
  | .variable _ => []
  | .binary _ l r _ => l.closedCalls s ++ r.closedCalls s
  | .call f arguments =>
    Expr.closedCallsOfAll s arguments ++
      if f.deterministic && Expr.allClosed s arguments then [.call f arguments] else []

/-- The closed calls in several trees. -/
def Expr.closedCallsOfAll (s : Store α) : List (Expr α) → List (Expr α)
  | [] => []
  | e :: es => e.closedCalls s ++ Expr.closedCallsOfAll s es

end

namespace Expr

/-- Evaluates trees in order until one fails. -/
def tryAll (s : Store α) (cs : List (Expr α)) : Run Unit := cs.forM fun c => do
  let _ ← c.evaluate s
  pure ()

theorem tryAll_append (cs ds : List (Expr α)) :
    tryAll s (cs ++ ds) = tryAll s cs >>= fun _ => tryAll s ds := by
  simp [tryAll]

/-- A failure is that of the first tree that fails. -/
theorem outcome_tryAll_eq_error_iff {cs : List (Expr α)} {err : Error} :
    (tryAll s cs).outcome = .error err ↔
      ∃ before c after, cs = before ++ c :: after ∧ (∀ b ∈ before, (b.evaluate s).Succeeds) ∧
        (c.evaluate s).outcome = .error err := by
  induction cs with
  | nil => simp [tryAll, pure, Run.done]
  | cons c cs ih =>
    have hcons : tryAll s (c :: cs) = c.evaluate s >>= fun _ => tryAll s cs := by
      simp [tryAll]
    rw [hcons, Run.outcome_bind]
    constructor
    · intro h
      cases hc : (c.evaluate s).outcome with
      | error e =>
        rw [hc] at h
        obtain rfl : e = err := Except.error.inj h
        exact ⟨[], c, cs, rfl, by simp, hc⟩
      | ok x =>
        rw [hc] at h
        obtain ⟨before, d, after, rfl, hbefore, hd⟩ := ih.1 h
        exact ⟨c :: before, d, after, rfl, List.forall_mem_cons.2 ⟨⟨x, hc⟩, hbefore⟩, hd⟩
    · rintro ⟨_ | ⟨b, before⟩, d, after, hcs, hbefore, hd⟩
      · obtain ⟨rfl, rfl⟩ := List.cons.inj hcs
        rw [hd]
        rfl
      · obtain ⟨rfl, rfl⟩ := List.cons.inj hcs
        obtain ⟨⟨x, hx⟩, hbefore⟩ := List.forall_mem_cons.1 hbefore
        rw [hx]
        exact ih.2 ⟨before, d, after, rfl, hbefore, hd⟩

/-- What a tree has been simplified to: a constant if the tree is closed, and then its value. -/
structure Folded (s : Store α) (e e' : Expr α) : Prop where
  isConstant_eq : e'.isConstant = e.isClosed s
  agree : e.isClosed s → (e'.evaluate s).Agree (e.evaluate s)

theorem Folded.exists_constant {e e' : Expr α} (h : Folded s e e') (he : e.isClosed s) :
    ∃ x, e' = .constant x ∧ (e.evaluate s).outcome = .ok x := by
  have hconst := h.isConstant_eq.trans he
  have hagree := h.agree he
  cases e' with
  | constant x =>
    rw [evaluate_constant] at hagree
    exact ⟨x, rfl, hagree.symm⟩
  | _ => cases hconst

theorem Folded.gather {op : Operator} {l l' r r' : Expr α} {b : Bool} (hl : Folded s l l')
    (hr : Folded s r r') : Folded s (.binary op l r b) (gather op l' r' b) := by
  refine ⟨?_, fun h => ?_⟩
  · rw [isConstant_gather, hl.isConstant_eq, hr.isConstant_eq, isClosed]
  · rw [isClosed, Bool.and_eq_true] at h
    obtain ⟨x, rfl, hx⟩ := hl.exists_constant h.1
    obtain ⟨y, rfl, hy⟩ := hr.exists_constant h.2
    rw [Run.Agree, evaluate_binary, Run.outcome_bind_of_ok hx, Run.outcome_bind_of_ok hy]
    rfl

theorem all_isConstant_of_folded {es es' : List (Expr α)} (h : List.Forall₂ (Folded s) es es') :
    es'.all isConstant = allClosed s es := by
  induction h with
  | nil => rw [allClosed, List.all_nil]
  | cons he _ ih => rw [allClosed, List.all_cons, he.isConstant_eq, ih]

theorem agree_of_folded {es es' : List (Expr α)} (h : List.Forall₂ (Folded s) es es')
    (hes : allClosed s es) :
    List.Forall₂ Run.Agree (evaluateAll s es') (evaluateAll s es) := by
  induction h with
  | nil =>
    rw [evaluateAll]
    exact .nil
  | cons he _ ih =>
    rw [allClosed, Bool.and_eq_true] at hes
    rw [evaluateAll, evaluateAll]
    exact .cons (he.agree hes.1) (ih hes.2)

/-- A call is worked out if it is closed, and otherwise it is kept. -/
theorem outcomes_simplify_call {f : Function α} {es es' : List (Expr α)}
    (h : List.Forall₂ (Folded s) es es') :
    Outcomes (fun e' _ => Folded s (.call f es) e')
      (if f.deterministic && es'.all isConstant then
        f.call s.time (evaluateAll s es') >>= fun x => pure (.constant x)
      else pure (.call f es') : Run (Expr α)).outcome
      (tryAll s (if f.deterministic && allClosed s es then [.call f es] else [])).outcome := by
  rw [all_isConstant_of_folded h]
  split
  · next hclosed =>
    have hcall : (f.call s.time (evaluateAll s es')).Agree ((call f es).evaluate s) := by
      rw [evaluate]
      exact f.agree_call s.time (agree_of_folded h (Bool.and_eq_true _ _ ▸ hclosed).2)
    have htry : tryAll s [.call f es] = (call f es).evaluate s >>= fun _ => pure () := by
      simp [tryAll]
    rw [htry, Run.outcome_bind, Run.outcome_bind, hcall]
    cases hx : ((call f es).evaluate s).outcome with
    | error e => exact .error e
    | ok x =>
      refine .ok ⟨?_, fun _ => ?_⟩
      · rw [isClosed, hclosed, isConstant]
      · rw [Run.Agree, evaluate_constant, hx]
        rfl
  · next hopen =>
    refine .ok ⟨?_, fun hclosed => ?_⟩
    · show false = _
      rw [isClosed, Bool.eq_false_iff.2 hopen]
    · rw [isClosed] at hclosed
      exact absurd hclosed hopen

mutual

/-- Simplification succeeds or fails as the closed calls do. -/
theorem outcomes_simplify : ∀ e : Expr α,
    Outcomes (fun e' _ => Folded s e e') (e.simplify s).outcome
      (tryAll s (e.closedCalls s)).outcome
  | .constant x => by
    rw [simplify, closedCalls]
    exact .ok ⟨by rw [isClosed, isConstant], fun _ => .refl _⟩
  | .variable v => by
    rw [simplify, closedCalls]
    refine .ok ?_
    split
    · next hv =>
      refine ⟨by rw [isClosed, isConstant, hv], fun _ => ?_⟩
      rw [evaluate_constant, evaluate]
    · next hv =>
      refine ⟨?_, fun _ => .refl _⟩
      show false = _
      rw [isClosed, Bool.eq_false_iff.2 hv]
  | .binary op l r b => by
    rw [simplify, closedCalls, tryAll_append]
    refine (outcomes_simplify l).bind fun l' _ hl => ?_
    rw [← bind_pure (tryAll s (r.closedCalls s))]
    exact (outcomes_simplify r).bind fun r' _ hr => .ok (hl.gather hr)
  | .call f es => by
    rw [simplify, closedCalls, tryAll_append]
    exact (outcomes_simplifyAll_closed es).bind fun es' _ hes => outcomes_simplify_call hes

/-- The same for several trees. -/
theorem outcomes_simplifyAll_closed : ∀ es : List (Expr α),
    Outcomes (fun es' _ => List.Forall₂ (Folded s) es es') (simplifyAll s es).outcome
      (tryAll s (closedCallsOfAll s es)).outcome
  | [] => by
    rw [simplifyAll, closedCallsOfAll]
    exact .ok .nil
  | e :: es => by
    rw [simplifyAll, closedCallsOfAll, tryAll_append]
    refine (outcomes_simplify e).bind fun e' _ he => ?_
    rw [← bind_pure (tryAll s (closedCallsOfAll s es))]
    exact (outcomes_simplifyAll_closed es).bind fun es' _ hes => .ok (.cons he hes)

end

/-- Simplification fails if and only if a closed call does, and with the error of the first such. -/
theorem outcome_simplify_eq_error_iff {e : Expr α} {err : Error} :
    (e.simplify s).outcome = .error err ↔
      ∃ before c after, e.closedCalls s = before ++ c :: after ∧
        (∀ b ∈ before, (b.evaluate s).Succeeds) ∧ (c.evaluate s).outcome = .error err := by
  rw [← outcome_tryAll_eq_error_iff]
  have h := outcomes_simplify (s := s) e
  generalize (e.simplify s).outcome = x at h
  generalize (tryAll s (e.closedCalls s)).outcome = y at h
  cases h with
  | ok => exact ⟨nofun, nofun⟩
  | error e => simp only [Except.error.injEq]

end Expr

/-! ### Parts that are needed -/

/-- A call fails, whatever the other arguments are, if its `i`-th argument does. -/
def Function.Requires (f : Function α) (time : α) (args : List (Run α)) (i : Nat) : Prop :=
  ∀ r : Run α, r.Fails → (f.call time (args.set i r)).Fails

namespace Expr

/-- A failure of the part `c` of a tree is one of the whole. -/
inductive Needs (s : Store α) : Expr α → Expr α → Prop
  | self (c : Expr α) : Needs s c c
  | left {op l r b c} (h : Needs s l c) : Needs s (.binary op l r b) c
  | right {op l r b c} (h : Needs s r c) : Needs s (.binary op l r b) c
  | argument {f : Function α} {es : List (Expr α)} {i e c} (he : es[i]? = some e)
      (hf : f.Requires s.time (evaluateAll s es) i) (h : Needs s e c) : Needs s (.call f es) c

/-- A call needs itself, and what is needed by the arguments that it requires. -/
theorem needs_call_iff {f : Function α} {es : List (Expr α)} {c : Expr α} :
    (call f es).Needs s c ↔ call f es = c ∨
      ∃ i e, es[i]? = some e ∧ f.Requires s.time (evaluateAll s es) i ∧ e.Needs s c := by
  constructor
  · intro h
    cases h with
    | self => exact .inl rfl
    | argument he hf h => exact .inr ⟨_, _, he, hf, h⟩
  · rintro (rfl | ⟨i, e, he, hf, h⟩)
    · exact .self _
    · exact .argument he hf h

/-- A tree fails if a part of it does that it needs. -/
theorem Needs.fails {e c : Expr α} (h : e.Needs s c) (hc : (c.evaluate s).Fails) :
    (e.evaluate s).Fails := by
  induction h with
  | self => exact hc
  | left _ ih =>
    rw [evaluate_binary, Run.fails_bind]
    exact .inl (ih hc)
  | @right op l r b _ _ ih =>
    rw [evaluate_binary, Run.fails_bind]
    cases hl : (l.evaluate s).outcome with
    | error err => exact .inl ⟨err, hl⟩
    | ok x => exact .inr ⟨x, rfl, Run.fails_bind.2 (.inl (ih hc))⟩
  | @argument f es i e _ he hf _ ih =>
    have hset : (evaluateAll s es).set i (e.evaluate s) = evaluateAll s es := by
      obtain ⟨hi, rfl⟩ := List.getElem?_eq_some_iff.1 he
      rw [evaluateAll_eq_map]
      exact List.map_set.symm.trans (by rw [List.set_getElem_self])
    rw [evaluate, ← hset]
    exact hf _ (ih hc)

end Expr

/-! ### Which arguments are required -/

omit [Arithmetic α] in
/-- A value that is asked for is that of the argument, and so is a failure. -/
theorem Demand.outcome_run_value {n : Nat} {i : Fin n} {resume : α → Demand α n} {time : α}
    {args : Fin n → Run α} : ((value i resume).run time args).outcome =
      (args i).outcome.bind fun x => ((resume x).run time args).outcome := by
  simp only [value, run]
  cases (args i).outcome with
  | error e => rfl
  | ok x => rfl

namespace Function

variable {time x : α} {a b c : Run α}

omit [Arithmetic α] in
theorem outcome_entering (f : Function α) (r : Run α) : (f.entering r).outcome = r.outcome := by
  rw [entering, Run.outcome_bind]
  rfl

/-- A condition has the outcome of the branch that is selected. -/
theorem outcome_call_conditional : (conditional.call time [a, b, c]).outcome =
    a.outcome.bind fun x => if Arithmetic.isTruthy x then b.outcome else c.outcome := by
  simp only [call, conditional, List.length_cons, List.length_nil, dif_pos, outcome_entering,
    Demand.outcome_run_value]
  refine congrArg a.outcome.bind (funext fun x => ?_)
  split
  · rw [Demand.outcome_run_value]
    exact bind_pure b.outcome
  · rw [Demand.outcome_run_value]
    exact bind_pure c.outcome

/-- Of the branches of a condition, the selected one is required; the other one is only if the
condition fails anyway. -/
theorem requires_conditional (ha : a.outcome = .ok x) :
    (conditional.Requires time [a, b, c] 1 ↔ Arithmetic.isTruthy x ∨ c.Fails) ∧
      (conditional.Requires time [a, b, c] 2 ↔ ¬ Arithmetic.isTruthy x ∨ b.Fails) := by
  have hcall (b c : Run α) : (conditional.call time [a, b, c]).Fails ↔
      if Arithmetic.isTruthy x then b.Fails else c.Fails := by
    rw [Run.Fails, outcome_call_conditional, ha]
    simp only [Except.bind]
    split <;> rfl
  have hfail : (Run.failed default : Run α).Fails := ⟨default, rfl⟩
  constructor
  · constructor
    · intro h
      have h := h _ hfail
      rw [List.set, List.set, hcall] at h
      split at h
      · next hx => exact .inl hx
      · exact .inr h
    · rintro h r hr
      rw [List.set, List.set, hcall]
      split
      · exact hr
      · next hx => exact h.resolve_left hx
  · constructor
    · intro h
      have h := h _ hfail
      rw [List.set, List.set, List.set, hcall] at h
      split at h
      · exact .inr h
      · next hx => exact .inl hx
    · rintro h r hr
      rw [List.set, List.set, List.set, hcall]
      split
      · next hx => exact h.resolve_left (not_not_intro hx)
      · exact hr

end Function

/-- A tree that has a value is rejected if and only if a closed call fails, and the error is that of
the first one that does. Closed calls that fail are calls that the value does not need. -/
theorem Expr.outcome_simplify_eq_error_iff_of_evaluate {e : Expr α} {x : α}
    (h : (e.evaluate s).outcome = .ok x) :
    (∀ err, (e.simplify s).outcome = .error err ↔
      ∃ before c after, e.closedCalls s = before ++ c :: after ∧
        (∀ b ∈ before, (b.evaluate s).Succeeds) ∧ (c.evaluate s).outcome = .error err) ∧
      ∀ c ∈ e.closedCalls s, (c.evaluate s).Fails → ¬ e.Needs s c := by
  refine ⟨fun err => outcome_simplify_eq_error_iff, fun c _ hc hneeds => ?_⟩
  exact Run.not_succeeds_of_fails (hneeds.fails hc) ⟨x, h⟩

/-- The branch that is not selected has two closed calls, of which the second fails. -/
theorem Expr.outcome_simplify_eq_error_iff_of_evaluate_conditional :
    let x : Variable := ⟨"x", 0⟩
    let s : Store ℚ := ⟨#[⟨4, false⟩], 0⟩
    let root : Function ℚ := ⟨"root", .variadic fun n => .allValues fun
      | [x] => .result (if x < 0 then .error (.reported "no root") else .ok x)
      | _ => .result (.ok n), true, 0⟩
    let c (x : ℚ) : Expr ℚ := .call root [.constant x]
    let e : Expr ℚ := .call conditional [.variable x, .variable x,
      .binary .add (c 1) (.binary .multiply (c (-1)) (.variable x) false) false]
    (e.evaluate s).outcome = .ok 4 ∧ e.closedCalls s = [c 1] ++ c (-1) :: [] ∧
      ¬ e.Needs s (c (-1)) ∧ (e.simplify s).outcome = .error (.reported "no root") := by
  intro x s root c e
  have hvalue : (e.evaluate s).outcome = .ok 4 := by decide +kernel
  have hcalls : e.closedCalls s = [c 1] ++ c (-1) :: [] := by
    simp [e, c, closedCalls, closedCallsOfAll, allClosed, isClosed, conditional, root, s, x,
      Store.isConstant, Store.cell]
  have hneeds : ¬ e.Needs s (c (-1)) := by
    rw [needs_call_iff]
    rintro (h | ⟨_ | _ | _ | i, e', he, hrequires, h⟩)
    · simp [c, conditional, root] at h
    · obtain rfl := Option.some.inj he
      cases h
    · obtain rfl := Option.some.inj he
      cases h
    · have hx : (pure 4 : Run ℚ).outcome = .ok 4 := rfl
      rcases (Function.requires_conditional hx).2.1 hrequires with h | h
      · exact h (by decide +kernel)
      · exact Run.not_fails_pure _ h
    · cases he
  refine ⟨hvalue, hcalls, hneeds, ?_⟩
  refine ((outcome_simplify_eq_error_iff_of_evaluate hvalue).1 _).2
    ⟨[c 1], c (-1), [], hcalls, ?_, by decide +kernel⟩
  rintro b hb
  obtain rfl := List.mem_singleton.1 hb
  exact ⟨1, by decide +kernel⟩

/-- The formula is read as a tree that evaluates to two, but a mean of no numbers is worked out for
the branch that is not selected. -/
theorem Calculator.compile_branch_not_taken :
    let c := Calculator.new {} 0
    let source := "1 ? 2 : avg()"
    let w := c.workspace.prepared c.settings
    let e? : Option (Expr Float) :=
      (w.parse (c.settings.tokens (Source.ofString source).bytes)).toOption.map Prod.fst
    e?.map (fun e => (e.evaluate w.store).outcome.toOption) = some (some 2) ∧
      e?.map (fun e => (e.simplify w.store).error?) = some (some (.noArguments "avg")) ∧
      (c.compile source).1.error? = some (.noArguments "avg") := by
  decide +kernel

end Reckon
