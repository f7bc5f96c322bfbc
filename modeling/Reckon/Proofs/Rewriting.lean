import Reckon.Proofs.Entering
import Reckon.Proofs.NormalForm
import Reckon.Proofs.Procedure

/-!
# Simplification as rewriting

An operator is simplified by rounds of rewriting. First its operands are simplified; then two
constants are folded, or a constant on the right of a sum or a product changes places with the left
operand, and a constant at the front of the right operand is combined with one on the left or moved
outward. In the last two cases the operator has been regrouped, and what has come of it is
simplified from its leaves up again. A moved constant leaves as many nodes as there were, so that
nothing in this says why there should be an end.

There is one, and it comes at once: what has been regrouped is in normal form, and to simplify it
means to go through it without any step.

## Main definitions

* `Rewrite`, `Rewriting` — the steps of rewriting, and procedures that keep a record of them.
* `Expr.rewrite` — the simplification of a tree in rounds, as many as it takes.

## Main statements

* `Expr.ends_rewrite_of_isNormal` — a normal form is rewritten without a step.
* `Expr.exists_ends_rewrite` — rewriting comes to an end, with the simplified tree.
* `Expr.rewrite_ends` — no tree that has been regrouped is regrouped again.
-/

namespace Reckon

/-- A step of rewriting. -/
inductive Rewrite (α : Type) where
  /-- A constant variable, an operator between constants or a call is replaced by a constant. -/
  | fold (e : Expr α)
  /-- A constant on the right of an operator changes places with the left operand. -/
  | swap (op : Operator)
  /-- An operator is regrouped, which makes `e` of it. -/
  | regroup (op : Operator) (e : Expr α)

variable {α β γ : Type}

/-- The operator that is regrouped in a step, if it is a step of this kind. -/
def Rewrite.regrouped? : Rewrite α → Option Operator
  | .regroup op _ => some op
  | _ => none

/-- What has been done: the functions that were entered, and the steps. -/
structure Rewrite.Log (α : Type) where
  entered : List Nat := []
  steps : List (Rewrite α) := []

/-- A procedure that records what it does. -/
abbrev Rewriting (α β : Type) := Procedure (Rewrite.Log α) β

namespace Rewriting

/-- Records a step. -/
def note (step : Rewrite α) : Rewriting α Unit :=
  modify fun log => { log with steps := log.steps ++ [step] }

/-- Carries out a run, and records what it enters. -/
def perform (r : Run β) : Rewriting α β := do
  modify fun log => { log with entered := log.entered ++ r.entered }
  match r.outcome with
  | .ok b => pure b
  | .error e => throw e

variable [Arithmetic α]

/-- Regroups an operator if there is a constant at the front of its right operand. -/
def rotate (op : Operator) (l r : Expr α) (isSealed : Bool) : Rewriting α (Expr.Round α) := do
  match Expr.rotate op l r isSealed with
  | .done e => pure (.done e)
  | .again e =>
    note (.regroup op e)
    pure (.again e)

/-- One round of rewriting an operator between simplified operands. -/
def round (op : Operator) (l r : Expr α) (isSealed : Bool) : Rewriting α (Expr.Round α) := do
  match l.constant?, r.constant? with
  | some x, some y =>
    note (.fold (.binary op l r isSealed))
    pure (.done (.constant (Arithmetic.apply op x y)))
  | _, _ =>
    if op.isCommutative && r.isConstant then
      note (.swap op)
      rotate op r l isSealed
    else
      rotate op l r isSealed

end Rewriting

section Rewrite

variable [Arithmetic α]

mutual

/-- Simplifies a tree in rounds. -/
def Expr.rewrite (s : Store α) (e : Expr α) : Rewriting α (Expr α) := do
  match e with
  | .constant x => pure (.constant x)
  | .variable v =>
    if s.isConstant v then
      Rewriting.note (.fold (.variable v))
      pure (.constant (s.value v))
    else
      pure (.variable v)
  | .binary op l r isSealed =>
    let l ← l |>.rewrite s
    let r ← r |>.rewrite s
    match ← Rewriting.round op l r isSealed with
    | .done e => pure e
    | .again e => e |>.rewrite s
  | .call f arguments =>
    let arguments ← s |>.rewriteAll arguments
    if f.deterministic && arguments.all Expr.isConstant then
      let x ← Rewriting.perform (f.call s.time (Expr.evaluateAll s arguments))
      Rewriting.note (.fold (.call f arguments))
      pure (.constant x)
    else
      pure (.call f arguments)
partial_fixpoint

/-- Simplifies several trees in order. -/
def Store.rewriteAll (s : Store α) (es : List (Expr α)) : Rewriting α (List (Expr α)) := do
  match es with
  | [] => pure []
  | e :: es =>
    let e ← e |>.rewrite s
    let es ← s |>.rewriteAll es
    pure (e :: es)
partial_fixpoint

end

end Rewrite

mutual

/-- The operators in a tree, in the order in which they are simplified. -/
def Expr.operators : Expr α → List Operator
  | .constant _ => []
  | .variable _ => []
  | .binary op l r _ => l.operators ++ (r.operators ++ [op])
  | .call _ arguments => Expr.operatorsOfAll arguments

/-- The operators in several trees. -/
def Expr.operatorsOfAll : List (Expr α) → List Operator
  | [] => []
  | e :: es => e.operators ++ Expr.operatorsOfAll es

end

namespace Expr

variable {op : Operator} {l r : Expr α}

theorem isConstant_of_constant? {x : α} (h : l.constant? = some x) : l.isConstant := by
  cases l with
  | constant => rfl
  | _ => cases h

/-- There is nothing to be regrouped at a settled operator. -/
theorem rotate_of_isSettled [Arithmetic α] (h : IsSettled op l r) (b : Bool) :
    rotate op l r b = .done (.binary op l r b) := by
  unfold rotate
  split
  · next op' y rest b' =>
    rw [if_neg]
    intro hop
    obtain ⟨hop, rfl⟩ : op.isCommutative ∧ op' = op := by simpa using hop
    have hchain := h.chain (Operator.isCommutative_iff.1 hop)
    simp [leadsWithConstant, isConstant] at hchain
  · rfl

end Expr

namespace Rewriting

/-! ### Procedures that come to an end -/

/-- A rewriting comes to an end, with the outcome of a run and what that enters, and takes some
steps. -/
def Ends (x : Rewriting α β) (r : Run β) (steps : List (Rewrite α)) : Prop :=
  ∀ log, x log = some (r.outcome, ⟨log.entered ++ r.entered, log.steps ++ steps⟩)

variable {x : Rewriting α β} {f : β → Rewriting α γ} {r : Run β} {g : β → Run γ} {k : Run γ}
variable {steps more : List (Rewrite α)}

theorem Ends.pure (b : β) : Ends (α := α) (pure b) (pure b) [] := by
  rintro ⟨entered, steps⟩
  show some _ = some _
  rw [List.append_nil]
  exact congrArg (fun ns => some (Except.ok b, (⟨ns, steps⟩ : Rewrite.Log α)))
    (List.append_nil entered).symm

theorem Ends.bind_of_ok {b : β} (h : x.Ends r steps) (hr : r.outcome = .ok b)
    (hf : (f b).Ends (g b) more) : (x >>= f).Ends (r >>= g) (steps ++ more) := by
  intro log
  have hx := h log
  rw [hr] at hx
  rw [Procedure.bind_of_ok hx, hf, Run.outcome_bind, Run.entered_bind_ok hr, hr, List.append_assoc,
    List.append_assoc]
  rfl

theorem Ends.bind_of_error {e : Error} (h : x.Ends r steps) (hr : r.outcome = .error e) :
    (x >>= f).Ends (r >>= g) steps := by
  intro log
  have hx := h log
  rw [hr] at hx
  rw [Procedure.bind_of_error hx, Run.outcome_bind, Run.entered_bind_error hr, hr]
  rfl

theorem Ends.note_bind {f : Unit → Rewriting α γ} {step : Rewrite α} (h : (f ()).Ends k more) :
    (note step >>= f).Ends k (step :: more) := by
  intro log
  show f () _ = _
  rw [h, List.append_assoc]
  rfl

theorem ends_perform (r : Run β) : Ends (α := α) (perform r) r [] := by
  rcases r with ⟨e | b, entered⟩ <;>
    exact fun log => by rw [List.append_nil]; rfl

variable [Arithmetic α]

/-- The steps of a round that comes to `round`: if it regroups the operator, then once, and with the
tree that is to be simplified again. -/
structure OfRound (op : Operator) (round : Expr.Round α) (steps : List (Rewrite α)) : Prop where
  again {op' : Operator} {e : Expr α} (h : .regroup op' e ∈ steps) : round = .again e
  once : (steps.filterMap Rewrite.regrouped?).Sublist [op]

theorem exists_ends_rotate (op : Operator) (l r : Expr α) (b : Bool) :
    ∃ steps, (rotate op l r b).Ends (pure (Expr.rotate op l r b)) steps ∧
      OfRound op (Expr.rotate op l r b) steps := by
  unfold rotate
  cases Expr.rotate op l r b with
  | done e => exact ⟨[], .pure _, nofun, List.nil_sublist _⟩
  | again e =>
    refine ⟨[.regroup op e], .note_bind (.pure _), fun h => ?_, List.Sublist.refl _⟩
    obtain ⟨-, rfl⟩ := Rewrite.regroup.inj (List.mem_singleton.1 h)
    rfl

theorem exists_ends_round (op : Operator) (l r : Expr α) (b : Bool) :
    ∃ steps, (round op l r b).Ends (pure (Expr.round op l r b)) steps ∧
      OfRound op (Expr.round op l r b) steps := by
  have hrotate : ∃ steps,
      Ends (if op.isCommutative && r.isConstant then
          note (.swap op) >>= fun _ => rotate op r l b
        else rotate op l r b)
        (pure (if op.isCommutative && r.isConstant then Expr.rotate op r l b
          else Expr.rotate op l r b)) steps ∧
      OfRound op (if op.isCommutative && r.isConstant then Expr.rotate op r l b
        else Expr.rotate op l r b) steps := by
    split
    · obtain ⟨steps, hends, hsteps⟩ := exists_ends_rotate op r l b
      exact ⟨.swap op :: steps, .note_bind hends, fun h => hsteps.again (by simpa using h),
        hsteps.once⟩
    · exact exists_ends_rotate op l r b
  unfold round Expr.round
  cases l.constant? with
  | none => exact hrotate
  | some x =>
    cases r.constant? with
    | none => exact hrotate
    | some y => exact ⟨[.fold _], .note_bind (.pure _), by simp, by simp [Rewrite.regrouped?]⟩

/-- A round leaves a settled operator as it is. -/
theorem ends_round_of_isSettled {op : Operator} {l r : Expr α} (h : Expr.IsSettled op l r)
    (b : Bool) : (round op l r b).Ends (pure (.done (.binary op l r b))) [] := by
  have hkeep : rotate op l r b = pure (.done (.binary op l r b)) := by
    rw [rotate, Expr.rotate_of_isSettled h b]
  have hswap : (op.isCommutative && r.isConstant) = false := by
    rw [Bool.and_eq_false_imp]
    exact fun hop => h.right (Operator.isCommutative_iff.1 hop)
  have hround : round op l r b = pure (.done (.binary op l r b)) := by
    unfold round
    split
    · next x y hl hr =>
      exact absurd ⟨Expr.isConstant_of_constant? hl, Expr.isConstant_of_constant? hr⟩ h.unfoldable
    · rw [hswap, if_neg Bool.false_ne_true, hkeep]
  rw [hround]
  exact .pure _

end Rewriting

namespace Expr

open Rewriting

variable [Arithmetic α] {s : Store α}

/-! ### Trees -/

mutual

/-- A normal form is rewritten without a step. -/
theorem ends_rewrite_of_isNormal :
    ∀ {e : Expr α}, e.IsNormal s → (e.rewrite s).Ends (pure e) []
  | .constant x, _ => by
    rw [rewrite]
    exact .pure _
  | .variable v, h => by
    rw [IsNormal] at h
    rw [rewrite]
    simp only [h]
    exact .pure _
  | .binary op l r b, h => by
    rw [IsNormal] at h
    obtain ⟨hl, hr, hset⟩ := h
    rw [rewrite]
    refine (ends_rewrite_of_isNormal hl).bind_of_ok (g := fun _ => pure _) rfl ?_
    refine (ends_rewrite_of_isNormal hr).bind_of_ok (g := fun _ => pure _) rfl ?_
    exact (ends_round_of_isSettled hset b).bind_of_ok (g := fun _ => pure _) rfl (.pure _)
  | .call f arguments, h => by
    rw [IsNormal] at h
    obtain ⟨hargs, hcall⟩ := h
    have hfold : (f.deterministic && arguments.all isConstant) = false := by
      rw [← Bool.not_eq_true, Bool.and_eq_true]
      exact hcall
    rw [rewrite]
    refine (ends_rewriteAll_of_allNormal hargs).bind_of_ok (g := fun _ => pure _) rfl ?_
    simp only [hfold]
    exact .pure _

theorem ends_rewriteAll_of_allNormal :
    ∀ {es : List (Expr α)}, AllNormal s es → (s.rewriteAll es).Ends (pure es) []
  | [], _ => by
    rw [Store.rewriteAll]
    exact .pure _
  | e :: es, h => by
    rw [AllNormal] at h
    rw [Store.rewriteAll]
    refine (ends_rewrite_of_isNormal h.1).bind_of_ok (g := fun _ => pure _) rfl ?_
    exact (ends_rewriteAll_of_allNormal h.2).bind_of_ok (g := fun _ => pure _) rfl (.pure _)

end

/-- The steps that a tree is simplified in: whatever is regrouped becomes a normal form, and every
regrouping belongs to another one of some operators. -/
structure Spares (s : Store α) (ops : List Operator) (steps : List (Rewrite α)) : Prop where
  again {op : Operator} {e : Expr α} (h : .regroup op e ∈ steps) : e.IsNormal s
  once : (steps.filterMap Rewrite.regrouped?).Sublist ops

theorem Spares.append {ops ops' : List Operator} {steps steps' : List (Rewrite α)}
    (h : Spares s ops steps) (h' : Spares s ops' steps') :
    Spares s (ops ++ ops') (steps ++ steps') where
  again hstep := (List.mem_append.1 hstep).elim h.again h'.again
  once := by
    rw [List.filterMap_append]
    exact h.once.append h'.once

theorem Spares.before {ops : List Operator} {steps : List (Rewrite α)} (h : Spares s ops steps)
    (ops' : List Operator) : Spares s (ops ++ ops') steps :=
  ⟨h.again, h.once.trans (List.sublist_append_left ops ops')⟩

theorem spares_nil (ops : List Operator) : Spares s ops ([] : List (Rewrite α)) :=
  ⟨nofun, List.nil_sublist ops⟩

mutual

/-- Rewriting comes to an end, and what it comes to is the simplified tree. -/
theorem exists_ends_rewrite : ∀ e : Expr α,
    ∃ steps, (e.rewrite s).Ends (e.simplify s) steps ∧ Spares s e.operators steps
  | .constant x => by
    rw [rewrite, simplify]
    exact ⟨[], .pure _, spares_nil _⟩
  | .variable v => by
    rw [rewrite, simplify]
    cases s.isConstant v with
    | true => exact ⟨[.fold _], .note_bind (.pure _), by simp, List.nil_sublist _⟩
    | false => exact ⟨[], .pure _, spares_nil _⟩
  | .binary op l r b => by
    rw [rewrite, simplify_binary_eq_round, operators]
    obtain ⟨stepsL, hl, hstepsL⟩ := exists_ends_rewrite l
    cases hleft : (l.simplify s).outcome with
    | error err => exact ⟨stepsL, hl.bind_of_error hleft, hstepsL.before _⟩
    | ok l' =>
      suffices hmore : ∃ more, Ends (r.rewrite s >>= fun r' => Rewriting.round op l' r' b >>= fun
            | .done e => pure e
            | .again e => e.rewrite s)
          (r.simplify s >>= fun r' => match round op l' r' b with
            | .done e => pure e
            | .again e => e.simplify s) more ∧ Spares s (r.operators ++ [op]) more by
        obtain ⟨more, hends, hmore⟩ := hmore
        exact ⟨stepsL ++ more, hl.bind_of_ok hleft hends, hstepsL.append hmore⟩
      obtain ⟨stepsR, hr, hstepsR⟩ := exists_ends_rewrite r
      cases hright : (r.simplify s).outcome with
      | error err => exact ⟨stepsR, hr.bind_of_error hright, hstepsR.before _⟩
      | ok r' =>
        obtain ⟨steps, hround, hsteps⟩ := exists_ends_round op l' r' b
        have htree : (round op l' r' b).tree.IsNormal s := by
          rw [tree_round]
          exact isNormal_gather (isNormal_simplified l hleft) (isNormal_simplified r hright) b
        have hnormal {e : Expr α} (h : round op l' r' b = .again e) : e.IsNormal s := by
          rwa [h] at htree
        refine ⟨stepsR ++ (steps ++ []), hr.bind_of_ok hright ?_, hstepsR.append ?_⟩
        · refine hround.bind_of_ok (g := fun | .done e => pure e | .again e => e.simplify s) rfl ?_
          cases hdone : round op l' r' b with
          | done e => exact .pure e
          | again e =>
            dsimp only
            rw [simplify_of_isNormal (hnormal hdone)]
            exact ends_rewrite_of_isNormal (hnormal hdone)
        · rw [List.append_nil]
          exact ⟨fun h => hnormal (hsteps.again h), hsteps.once⟩
  | .call f arguments => by
    rw [rewrite, simplify, operators]
    obtain ⟨steps, hargs, hsteps⟩ := exists_ends_rewriteAll arguments
    cases hall : (simplifyAll s arguments).outcome with
    | error err => exact ⟨steps, hargs.bind_of_error hall, hsteps⟩
    | ok es =>
      suffices hmore : ∃ more, Ends (β := Expr α) (if f.deterministic && es.all isConstant then do
            let x ← perform (f.call s.time (evaluateAll s es))
            note (.fold (.call f es))
            pure (.constant x)
          else pure (.call f es))
          (if f.deterministic && es.all isConstant then do
            let x ← f.call s.time (evaluateAll s es)
            pure (.constant x)
          else pure (.call f es)) more ∧ Spares s [] more by
        obtain ⟨more, hends, hmore⟩ := hmore
        refine ⟨steps ++ more, hargs.bind_of_ok hall hends, ?_⟩
        rw [← List.append_nil (operatorsOfAll arguments)]
        exact hsteps.append hmore
      split
      · have hcall := ends_perform (α := α) (f.call s.time (evaluateAll s es))
        cases hvalue : (f.call s.time (evaluateAll s es)).outcome with
        | error err => exact ⟨[], hcall.bind_of_error hvalue, spares_nil _⟩
        | ok x =>
          exact ⟨[.fold _], hcall.bind_of_ok hvalue (.note_bind (.pure _)), by simp,
            List.nil_sublist _⟩
      · exact ⟨[], .pure _, spares_nil _⟩

theorem exists_ends_rewriteAll : ∀ es : List (Expr α),
    ∃ steps, (s.rewriteAll es).Ends (simplifyAll s es) steps ∧ Spares s (operatorsOfAll es) steps
  | [] => by
    rw [Store.rewriteAll, simplifyAll]
    exact ⟨[], .pure _, spares_nil _⟩
  | e :: es => by
    rw [Store.rewriteAll, simplifyAll, operatorsOfAll]
    obtain ⟨steps, he, hsteps⟩ := exists_ends_rewrite e
    cases hfirst : (e.simplify s).outcome with
    | error err => exact ⟨steps, he.bind_of_error hfirst, hsteps.before _⟩
    | ok e' =>
      obtain ⟨more, hes, hmore⟩ := exists_ends_rewriteAll es
      refine ⟨steps ++ more, he.bind_of_ok hfirst ?_, hsteps.append hmore⟩
      cases hrest : (simplifyAll s es).outcome with
      | error err => exact hes.bind_of_error hrest
      | ok es' => exact List.append_nil more ▸ hes.bind_of_ok hrest (.pure _)

end

/-- Rewriting a tree in rounds comes to an end: with the simplified tree or with the error of a
function, having entered the same functions. To rewrite what has been regrouped is to leave it as it
is, without a step. So no operator that comes of a regrouping is regrouped, and those that are were
all in the tree: each operator of the tree is regrouped at most once. -/
theorem rewrite_ends (s : Store α) (e : Expr α) :
    ∃ log, e.rewrite s {} = some ((e.simplify s).outcome, log) ∧
      log.entered = (e.simplify s).entered ∧
      (∀ op e', .regroup op e' ∈ log.steps → e'.rewrite s {} = some (.ok e', {})) ∧
      (log.steps.filterMap Rewrite.regrouped?).Sublist e.operators := by
  obtain ⟨steps, hends, hsteps⟩ := exists_ends_rewrite (s := s) e
  exact ⟨_, hends {}, rfl, fun _ _ h => ends_rewrite_of_isNormal (hsteps.again h) {}, hsteps.once⟩

end Expr

end Reckon
