import Reckon.Proofs.Simplification

/-!
# Trees that simplify alike

Two trees correspond by a function on numbers if either both fail to be simplified, with the same
error, or both are simplified, and whatever values the variables have then, the first evaluates to
the image of what the second evaluates to. Trees that correspond by the identity are interchangeable:
nothing that is built around them can tell them apart.

Nothing is asked of functions here, since corresponding calls have arguments with the same outcomes.

## Main definitions

* `Outcomes` — both outcomes are results that are related, or both are the same error.
* `Expr.Corresponds` — two trees correspond by a function on numbers.

## Main statements

* `Expr.Corresponds.binary`, `Expr.Corresponds.call` — correspondence is kept by operators and calls.
-/

namespace Reckon

/-- Two outcomes are related results, or the same error. -/
inductive Outcomes {β γ : Type} (R : β → γ → Prop) : Except Error β → Except Error γ → Prop
  | ok {b c} (h : R b c) : Outcomes R (.ok b) (.ok c)
  | error (e : Error) : Outcomes R (.error e) (.error e)

namespace Outcomes

variable {β γ β' γ' : Type} {R : β → γ → Prop} {S : β' → γ' → Prop}

theorem of_eq {x : Except Error β} {R : β → β → Prop} (hR : ∀ b, R b b) : Outcomes R x x := by
  cases x with
  | error e => exact .error e
  | ok b => exact .ok (hR b)

theorem bind {x : Run β} {y : Run γ} {f : β → Run β'} {g : γ → Run γ'}
    (h : Outcomes R x.outcome y.outcome)
    (hf : ∀ b c, R b c → Outcomes S (f b).outcome (g c).outcome) :
    Outcomes S (x >>= f).outcome (y >>= g).outcome := by
  rw [Run.outcome_bind, Run.outcome_bind]
  generalize x.outcome = a at h
  generalize y.outcome = b at h
  cases h with
  | ok h => exact hf _ _ h
  | error e => exact .error e

end Outcomes

namespace Expr

variable {α : Type} [Arithmetic α]

/-- Simplified trees of which the first evaluates to the image of the second. -/
structure Images (f : α → α) (e e' : Expr α) : Prop where
  isConstant_eq : e.isConstant = e'.isConstant
  agree (s : Store α) : (e.evaluate s).Agree (f <$> e'.evaluate s)

/-- Two trees are simplified with the same error, or to trees of which the first evaluates to the
image of the second. -/
def Corresponds (s : Store α) (f : α → α) (e e' : Expr α) : Prop :=
  Outcomes (Images f) (e.simplify s).outcome (e'.simplify s).outcome

/-- Two trees are interchangeable. -/
abbrev Matches (s : Store α) (e e' : Expr α) : Prop := Corresponds s id e e'

variable {s : Store α} {f g h : α → α}

theorem Images.refl (e : Expr α) : Images id e e :=
  ⟨rfl, fun s => by rw [id_map]⟩

theorem Matches.refl (e : Expr α) : Matches s e e := .of_eq Images.refl

theorem Images.symm {e e' : Expr α} (h : Images id e e') : Images id e' e :=
  ⟨h.isConstant_eq.symm, fun s => by simpa using (h.agree s).symm⟩

theorem Images.trans {e e' e'' : Expr α} (h : Images id e e') (h' : Images id e' e'') :
    Images id e e'' :=
  ⟨h.isConstant_eq.trans h'.isConstant_eq, fun s => by
    simpa using (h.agree s).trans (by simpa using h'.agree s)⟩

theorem Matches.symm {e e' : Expr α} (h : Matches s e e') : Matches s e' e := by
  unfold Matches Corresponds at h ⊢
  generalize (e.simplify s).outcome = x at h
  generalize (e'.simplify s).outcome = y at h
  cases h with
  | ok h => exact .ok h.symm
  | error e => exact .error e

theorem Matches.exists_of_eq_ok {e e' e₁ : Expr α} (h : Matches s e e')
    (he : (e.simplify s).outcome = .ok e₁) :
    ∃ e₁', (e'.simplify s).outcome = .ok e₁' ∧ Images id e₁ e₁' := by
  unfold Matches Corresponds at h
  rw [he] at h
  generalize (e'.simplify s).outcome = y at h ⊢
  cases h with
  | ok h => exact ⟨_, rfl, h⟩

theorem Matches.trans {e e' e'' : Expr α} (h : Matches s e e') (h' : Matches s e' e'') :
    Matches s e e'' := by
  unfold Matches Corresponds at h h' ⊢
  generalize (e.simplify s).outcome = x at h
  generalize (e'.simplify s).outcome = y at h h'
  generalize (e''.simplify s).outcome = z at h'
  cases h with
  | ok h =>
    cases h' with
    | ok h' => exact .ok (h.trans h')
  | error e =>
    cases h' with
    | error => exact .error e

theorem corresponds_constant {x y : α} (hxy : x = f y) :
    Corresponds s f (.constant x) (.constant y) := by
  unfold Corresponds
  rw [simplify, simplify]
  refine .ok ⟨rfl, fun s => ?_⟩
  rw [evaluate_constant, evaluate_constant, map_pure, hxy]

theorem isConstant_regroup (op : Operator) (l r : Expr α) (b : Bool) :
    (regroup op l r b).isConstant = false := by
  unfold regroup
  split
  · split
    · split <;> rfl
    · rfl
  · rfl

/-- A gathered tree is a constant if both its operands are. -/
theorem isConstant_gather (op : Operator) (l r : Expr α) (b : Bool) :
    (gather op l r b).isConstant = (l.isConstant && r.isConstant) := by
  unfold gather
  split
  · rfl
  · next y hl =>
    have hl : l.isConstant = false := by
      cases l with
      | constant x => exact absurd rfl (hl x)
      | _ => rfl
    rw [hl, Bool.false_and]
    split
    · exact isConstant_regroup ..
    · rfl
  · next hr _ =>
    have hr : r.isConstant = false := by
      cases r with
      | constant y => exact absurd rfl (hr y)
      | _ => rfl
    rw [hr, Bool.and_false]
    exact isConstant_regroup ..

theorem outcomes_simplifyAll {es es' : List (Expr α)} (hes : List.Forall₂ (Matches s) es es') :
    Outcomes (List.Forall₂ (Images id)) (simplifyAll s es).outcome
      (simplifyAll s es').outcome := by
  induction hes with
  | nil =>
    rw [simplifyAll]
    exact .ok .nil
  | cons he _ ih =>
    rw [simplifyAll, simplifyAll]
    exact he.bind fun e e' he => ih.bind fun es es' hes => .ok (.cons he hes)

/-- Calls with interchangeable arguments are interchangeable. -/
theorem Matches.call {f : Function α} {es es' : List (Expr α)}
    (hes : List.Forall₂ (Matches s) es es') : Matches s (.call f es) (.call f es') := by
  unfold Matches Corresponds
  rw [simplify, simplify]
  refine (outcomes_simplifyAll hes).bind fun es es' hes => ?_
  have hconst : es.all isConstant = es'.all isConstant := by
    induction hes with
    | nil => rfl
    | cons he _ ih => rw [List.all_cons, List.all_cons, he.isConstant_eq, ih]
  have hcall (s' : Store α) :
      (f.call s'.time (evaluateAll s' es)).Agree (f.call s'.time (evaluateAll s' es')) := by
    refine f.agree_call s'.time ?_
    rw [evaluateAll_eq_map, evaluateAll_eq_map, List.forall₂_map_left_iff,
      List.forall₂_map_right_iff]
    exact hes.imp fun e e' he => by simpa using he.agree s'
  rw [hconst]
  split
  · refine Outcomes.bind (R := Eq) ?_ fun x y hxy => .ok (hxy ▸ Images.refl _)
    rw [hcall s]
    exact .of_eq fun _ => rfl
  · refine .ok ⟨rfl, fun s' => ?_⟩
    rw [id_map, evaluate, evaluate]
    exact hcall s'

variable [ExactArithmetic α]

/-- Operators keep correspondence if they commute with the functions. -/
theorem Corresponds.binary {op op' : Operator} {l l' r r' : Expr α} {b b' : Bool}
    (hl : Corresponds s f l l') (hr : Corresponds s g r r')
    (hop : ∀ x y, Arithmetic.apply op (f x) (g y) = h (Arithmetic.apply op' x y)) :
    Corresponds s h (.binary op l r b) (.binary op' l' r' b') := by
  unfold Corresponds
  rw [simplify, simplify]
  refine hl.bind fun l l' hl => hr.bind fun r r' hr => .ok ⟨?_, fun s => ?_⟩
  · rw [isConstant_gather, isConstant_gather, hl.isConstant_eq, hr.isConstant_eq]
  · rw [evaluate_gather, evaluate_gather, evaluate_binary, evaluate_binary]
    refine .trans ((hl.agree s).bind fun x => (hr.agree s).bind fun y => .refl _) ?_
    simp only [bind_map_left, map_bind, map_pure, hop]
    rfl

theorem Matches.binary {op : Operator} {l l' r r' : Expr α} {b b' : Bool} (hl : Matches s l l')
    (hr : Matches s r r') : Matches s (.binary op l r b) (.binary op l' r' b') :=
  Corresponds.binary hl hr fun _ _ => rfl

theorem matches_sealTop (e : Expr α) : Matches s e.sealTop e := by
  cases e with
  | binary op l r b => exact .binary (.refl l) (.refl r)
  | _ => exact .refl _

theorem Matches.sealTop {e e' : Expr α} (h : Matches s e e') : Matches s e.sealTop e'.sealTop :=
  (matches_sealTop e).trans (h.trans (matches_sealTop e').symm)

end Expr

end Reckon
