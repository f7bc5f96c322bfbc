import Reckon.Builtins
import Reckon.Expr.Simplify
import Reckon.Proofs.Exact
import Mathlib.Data.List.Forall2

/-!
# Simplification keeps the value

A simplified tree evaluates to the same value, or fails with the same error, as the tree that it
came from. This holds for exact arithmetic, whatever values the variables are given that are not
constants.

Regrouping never changes the order in which two operands that may fail are evaluated: of two
operands that change places, one is a constant. A call may be worked out in advance because its body
sees nothing but the outcomes of its arguments, which are the same before and after.

## Main definitions

* `Body.IsPure` — a body that does not ask for the time.
* `Expr.Calls` — what holds of all the functions that a tree calls.
* `Function.asked` — the arguments that a call evaluates.
* `Store.Assigns` — a store in which the constants have the values of another store.

## Main statements

* `Function.agree_call_of_asked` — a call sees nothing but the outcomes of these arguments.
* `Expr.evaluate_gather` — gathering operands does not change a run.
* `Expr.outcome_evaluate_of_simplify` — simplification does not change an outcome.
-/

namespace Reckon

variable {α : Type}

/-! ### Pure functions -/

/-- A computation that asks for nothing but arguments. -/
def Demand.IsPure {n : Nat} : Demand α n → Prop
  | .result _ => True
  | .argument _ resume => ∀ outcome, (resume outcome).IsPure
  | .clock _ => False

/-- A body whose result depends on nothing but the outcomes of its arguments. -/
def Body.IsPure : Body α → Prop
  | unary _ => True
  | binary _ => True
  | fixed _ demand => demand.IsPure
  | variadic demand => ∀ n, (demand n).IsPure

/-- Calls of a function may be worked out in advance: unless it is declared not to be deterministic,
its body is pure. -/
def Function.IsFoldable (f : Function α) : Prop := f.deterministic → f.body.IsPure

mutual

/-- Whether all the functions that a tree calls satisfy `P`, in whatever part of it they occur. -/
def Expr.Calls (P : Function α → Prop) : Expr α → Prop
  | .constant _ => True
  | .variable _ => True
  | .binary _ l r _ => l.Calls P ∧ r.Calls P
  | .call f arguments => P f ∧ Expr.AllCall P arguments

/-- Whether all the functions that several trees call satisfy `P`. -/
def Expr.AllCall (P : Function α → Prop) : List (Expr α) → Prop
  | [] => True
  | e :: es => e.Calls P ∧ Expr.AllCall P es

end

theorem Expr.calls_of_allCall {P : Function α → Prop} : ∀ {es : List (Expr α)} {i : Nat}
    {a : Expr α}, AllCall P es → es[i]? = some a → a.Calls P
  | [], _, _, _, ha => by simp at ha
  | e :: es, i, a, h, ha => by
    rw [AllCall] at h
    cases i with
    | zero =>
      obtain rfl := Option.some.inj ha
      exact h.1
    | succ i => exact calls_of_allCall h.2 ha

namespace Demand

variable {n : Nat}

theorem IsPure.value {i : Fin n} {resume : α → Demand α n} (h : ∀ x, (resume x).IsPure) :
    (value i resume).IsPure := by
  intro outcome
  cases outcome with
  | ok x => exact h x
  | error => trivial

theorem IsPure.values {is : List (Fin n)} {resume : List α → Demand α n}
    (h : ∀ xs, (resume xs).IsPure) : (values is resume).IsPure := by
  induction is generalizing resume with
  | nil => exact h []
  | cons i is ih => exact .value fun x => ih fun xs => h (x :: xs)

end Demand

theorem isFoldable_conditional [Arithmetic α] : (conditional : Function α).IsFoldable := by
  intro _
  show (Demand.value 0 _).IsPure
  refine .value fun x => ?_
  split <;> exact .value fun _ => trivial

theorem isFoldable_absolute [Arithmetic α] : (absolute : Function α).IsFoldable := fun _ => trivial

/-- The standard functions may all be worked out in advance, but for the one that says it may
not. -/
theorem Builtins.isFoldable_of_mem_functions {f : Function Float} (h : f ∈ functions) :
    f.IsFoldable := by
  have hunary (name : String) (g : Float → Float) : (unary name g).IsFoldable := fun _ => trivial
  have hbinary (name : String) (g : Float → Float → Float) : (binary name g).IsFoldable :=
    fun _ => trivial
  have hvariadic (name : String) (g : List Float → Except Error Float) :
      (variadic name g).IsFoldable := fun _ n => .values fun xs => trivial
  simp only [functions, List.mem_cons, List.not_mem_nil, or_false] at h
  rcases h with rfl | rfl | rfl | rfl | rfl | rfl | rfl | rfl | rfl | rfl | rfl | rfl | rfl | rfl |
    rfl | rfl | rfl | rfl | rfl | rfl | rfl | rfl | rfl | rfl | rfl | rfl | rfl | rfl
  all_goals
    first
    | exact hunary _ _
    | exact hbinary _ _
    | exact hvariadic _ _
    | exact fun hdet => nomatch hdet

/-- Runs with the same outcome, whatever they enter. -/
def Run.Agree {β : Type} (a b : Run β) : Prop := a.outcome = b.outcome

namespace Run

variable {β γ : Type} {a b : Run β}

@[refl] theorem Agree.refl (a : Run β) : a.Agree a := rfl

theorem Agree.symm (h : a.Agree b) : b.Agree a := Eq.symm h

theorem Agree.trans {c : Run β} (h : a.Agree b) (h' : b.Agree c) : a.Agree c := Eq.trans h h'

theorem outcome_bind (a : Run β) (f : β → Run γ) :
    (a >>= f).outcome = a.outcome.bind fun x => (f x).outcome := by
  rcases a with ⟨_ | _, _⟩ <;> rfl

theorem outcome_bind_of_ok {f : β → Run γ} {x : β} (h : a.outcome = .ok x) :
    (a >>= f).outcome = (f x).outcome := by
  rw [outcome_bind, h]
  rfl

theorem Agree.bind {f g : β → Run γ} (h : a.Agree b) (hf : ∀ x, (f x).Agree (g x)) :
    (a >>= f).Agree (b >>= g) := by
  unfold Agree at h hf ⊢
  simp only [outcome_bind, h, hf]

/-- A run with a result is made of steps with results. -/
theorem outcome_bind_eq_ok {f : β → Run γ} {y : γ} :
    (a >>= f).outcome = .ok y ↔ ∃ x, a.outcome = .ok x ∧ (f x).outcome = .ok y := by
  rw [outcome_bind]
  cases a.outcome <;> simp [Except.bind]

end Run

namespace Demand

variable {n : Nat}

/-- The arguments that a computation asks for, in order. -/
def asked (time : α) (args : Fin n → Run α) : Demand α n → List (Fin n)
  | .result _ => []
  | .argument i resume => i :: asked time args (resume (args i).outcome)
  | .clock resume => asked time args (resume time)

/-- A computation sees of its arguments nothing but the outcomes of those that it asks for. -/
theorem agree_run_of_asked {args args' : Fin n → Run α} (time : α) (d : Demand α n)
    (h : ∀ i ∈ d.asked time args, (args i).Agree (args' i)) :
    (d.run time args).Agree (d.run time args') := by
  induction d with
  | result => rfl
  | argument i resume ih =>
    rw [asked, List.forall_mem_cons] at h
    have hi : (args i).outcome = (args' i).outcome := h.1
    simp only [Run.Agree, run, ← hi]
    exact ih _ h.2
  | clock resume ih =>
    rw [asked] at h
    exact ih _ h

/-- The same, for a family of computations and two spellings of the number of arguments. -/
theorem agree_run_family_of_asked {n n' : Nat} {args : Fin n → Run α} {args' : Fin n' → Run α}
    (demand : (n : Nat) → Demand α n) (time : α) (hn : n = n')
    (h : ∀ i ∈ (demand n).asked time args, (args i).Agree (args' (i.cast hn))) :
    ((demand n).run time args).Agree ((demand n').run time args') := by
  subst hn
  exact (demand n).agree_run_of_asked time h

/-- A pure computation comes to the same at any time. -/
theorem IsPure.run_eq {args : Fin n → Run α} {d : Demand α n} (hd : d.IsPure)
    (time time' : α) : d.run time args = d.run time' args := by
  induction d with
  | result => rfl
  | argument i resume ih => simp only [run, ih _ (hd _)]
  | clock resume ih => cases hd

end Demand

/-- The result is a proper number. -/
def Run.isProper [Arithmetic α] (r : Run α) : Bool :=
  match r.outcome with
  | .ok x => !Arithmetic.isNaN x
  | .error _ => false

namespace Function

theorem agree_entering {f : Function α} {r r' : Run α} (h : r.Agree r') :
    (f.entering r).Agree (f.entering r') :=
  Run.Agree.bind (.refl _) fun _ => h

variable [Arithmetic α] {f : Function α} {time : α} {args args' : List (Run α)}

/-- The arguments that a call evaluates, by their places and in order. -/
def asked (f : Function α) (time : α) (args : List (Run α)) : List Nat :=
  match f.body with
  | .unary _ => if args.length = 1 then [0] else []
  | .binary _ =>
    match args with
    | [a, _] => if a.isProper then [0, 1] else [0]
    | _ => []
  | .fixed n demand =>
    if h : n = args.length then
      (demand.asked time fun i => args.get (i.cast h)).map Fin.val
    else
      []
  | .variadic demand => ((demand args.length).asked time args.get).map Fin.val

theorem agree_properly {a a' : Run α} {resume resume' : α → Run α} (h : a.Agree a')
    (hr : ∀ x, a.outcome = .ok x → Arithmetic.isNaN x = false → (resume x).Agree (resume' x)) :
    (properly a resume).Agree (properly a' resume') := by
  have h : a.outcome = a'.outcome := h
  simp only [properly, Run.Agree, Run.outcome_bind, ← h]
  cases hx : a.outcome with
  | error e => rfl
  | ok x =>
    simp only [Except.bind]
    split
    · rfl
    · next hproper => exact hr x hx (Bool.eq_false_iff.2 hproper)

theorem call_unary_of_ne {name : String} {g : α → α} {deterministic : Bool} {serial : Nat}
    (hn : args.length ≠ 1) :
    call ⟨name, .unary g, deterministic, serial⟩ time args =
      .failed (.argumentCount name (.fixed 1) args.length) := by
  rcases args with _ | ⟨a, _ | ⟨b, args⟩⟩
  · rfl
  · exact absurd rfl hn
  · rfl

theorem call_binary_of_ne {name : String} {g : α → α → α} {deterministic : Bool} {serial : Nat}
    (hn : args.length ≠ 2) :
    call ⟨name, .binary g, deterministic, serial⟩ time args =
      .failed (.argumentCount name (.fixed 2) args.length) := by
  rcases args with _ | ⟨a, _ | ⟨b, _ | ⟨c, args⟩⟩⟩
  · rfl
  · rfl
  · exact absurd rfl hn
  · rfl

/-- A call sees of its arguments nothing but the outcomes of those that it evaluates. -/
theorem agree_call_of_asked (hlen : args.length = args'.length)
    (h : ∀ i ∈ f.asked time args, ∀ (hi : i < args.length) (hi' : i < args'.length),
      args[i].Agree args'[i]) :
    (f.call time args).Agree (f.call time args') := by
  rcases f with ⟨name, body, deterministic, serial⟩
  cases body with
  | unary g =>
    by_cases hn : args.length = 1
    · obtain ⟨a, rfl⟩ := List.length_eq_one_iff.1 hn
      obtain ⟨a', rfl⟩ := List.length_eq_one_iff.1 (hlen ▸ hn)
      have ha : a.Agree a' := h 0 (by simp [asked]) (by simp) (by simp)
      exact agree_properly ha fun x _ _ => .refl _
    · rw [call_unary_of_ne hn, call_unary_of_ne (hlen ▸ hn), hlen]
  | binary g =>
    by_cases hn : args.length = 2
    · obtain ⟨a, b, rfl⟩ := List.length_eq_two.1 hn
      obtain ⟨a', b', rfl⟩ := List.length_eq_two.1 (hlen ▸ hn)
      have ha : a.Agree a' := h 0 (by simp only [asked]; split <;> simp) (by simp) (by simp)
      refine agree_properly ha fun x hx hproper => ?_
      have hb : b.Agree b' := h 1 (by simp [asked, Run.isProper, hx, hproper]) (by simp) (by simp)
      exact agree_properly hb fun y _ _ => .refl _
    · rw [call_binary_of_ne hn, call_binary_of_ne (hlen ▸ hn), hlen]
  | fixed n demand =>
    by_cases hn : n = args.length
    · simp only [asked, dif_pos hn, List.forall_mem_map] at h
      simp only [call, dif_pos hn, dif_pos (hn.trans hlen)]
      exact agree_entering (demand.agree_run_of_asked time fun i hi => h i hi _ _)
    · simp only [call, Run.Agree, dif_neg (hlen ▸ hn), arity, hlen]
  | variadic demand =>
    simp only [asked, List.forall_mem_map] at h
    exact agree_entering (Demand.agree_run_family_of_asked demand time hlen fun i hi => h i hi _ _)

/-- If all the arguments of two calls have the same outcomes, then so do the calls. -/
theorem agree_call (f : Function α) (time : α) (h : List.Forall₂ Run.Agree args args') :
    (f.call time args).Agree (f.call time args') :=
  agree_call_of_asked h.length_eq fun _ _ hi hi' => h.get hi hi'

/-- A call of a pure function comes to the same at any time. -/
theorem call_eq_of_isPure (hf : f.body.IsPure) (time time' : α) :
    f.call time args = f.call time' args := by
  rcases f with ⟨name, body, deterministic, serial⟩
  cases body with
  | unary g => rfl
  | binary g => rfl
  | fixed n demand =>
    have hd : demand.IsPure := hf
    simp only [call]
    split
    · rw [hd.run_eq time time']
    · rfl
  | variadic demand =>
    have hd : (demand args.length).IsPure := hf _
    simp only [call]
    rw [hd.run_eq time time']

end Function

/-! ### Gathering operands -/

namespace Expr

variable [Arithmetic α] (s : Store α)

theorem evaluate_constant (x : α) : (constant x).evaluate s = pure x := by
  rw [evaluate]

theorem evaluate_binary (op : Operator) (l r : Expr α) (b : Bool) :
    (binary op l r b).evaluate s =
      l.evaluate s >>= fun x => r.evaluate s >>= fun y => pure (Arithmetic.apply op x y) := by
  rw [evaluate]

variable [ExactArithmetic α]

/-- Bringing a constant to the front of a chain does not change the run. -/
theorem evaluate_regroup (op : Operator) (left right : Expr α) (b : Bool) :
    (regroup op left right b).evaluate s = (binary op left right b).evaluate s := by
  unfold regroup
  split
  · next op' y rest _ =>
    split
    · next h =>
      obtain ⟨hop, rfl⟩ : op.isCommutative ∧ op' = op := by simpa using h
      split
      · next x =>
        simp only [join, evaluate_binary, evaluate_constant, pure_bind, bind_assoc]
        simp only [ExactArithmetic.apply_assoc hop]
      · -- The constant `y` moves in front of `left`, and cannot fail.
        simp only [join, evaluate_binary, evaluate_constant, pure_bind, bind_assoc]
        refine bind_congr fun x => bind_congr fun z => ?_
        rw [← ExactArithmetic.apply_assoc hop y x z, ExactArithmetic.apply_comm hop y x,
          ExactArithmetic.apply_assoc hop x y z]
    · rfl
  · rfl

/-- Gathering operands does not change the run. -/
theorem evaluate_gather (op : Operator) (left right : Expr α) (b : Bool) :
    (gather op left right b).evaluate s = (binary op left right b).evaluate s := by
  unfold gather
  split
  · next x y => simp only [evaluate_binary, evaluate_constant, pure_bind]
  · next y _ =>
    split
    · next hop =>
      rw [evaluate_regroup]
      simp only [evaluate_binary, evaluate_constant, pure_bind]
      exact bind_congr fun x => by rw [ExactArithmetic.apply_comm hop]
    · rfl
  · exact evaluate_regroup s op left right b

end Expr

/-! ### Simplified trees -/

/-- The constants of `s` have their values in `s'` too. What the other variables have is free, and
so is the time. -/
def Store.Assigns [Arithmetic α] (s s' : Store α) : Prop :=
  ∀ v, s.isConstant v → s'.value v = s.value v

section Simplify

variable [Arithmetic α] {s s' : Store α}

/-- The operands of an operator are simplified and then gathered. -/
theorem Expr.outcome_simplify_binary {op : Operator} {l l' r r' : Expr α} {b : Bool}
    (hl : (l.simplify s).outcome = .ok l') (hr : (r.simplify s).outcome = .ok r') :
    ((binary op l r b).simplify s).outcome = .ok (gather op l' r' b) := by
  rw [simplify, Run.outcome_bind_of_ok hl, Run.outcome_bind_of_ok hr]
  rfl

theorem Expr.exists_of_simplify_binary {op : Operator} {l r e' : Expr α} {b : Bool}
    (h : ((binary op l r b).simplify s).outcome = .ok e') :
    ∃ l' r', (l.simplify s).outcome = .ok l' ∧ (r.simplify s).outcome = .ok r' ∧
      gather op l' r' b = e' := by
  rw [simplify] at h
  obtain ⟨l', hl, h⟩ := Run.outcome_bind_eq_ok.1 h
  obtain ⟨r', hr, h⟩ := Run.outcome_bind_eq_ok.1 h
  exact ⟨l', r', hl, hr, Except.ok.inj h⟩

/-- Several trees are simplified one by one. -/
theorem Expr.forall₂_of_simplifyAll : ∀ {es es' : List (Expr α)},
    (simplifyAll s es).outcome = .ok es' →
      List.Forall₂ (fun e e' => (e.simplify s).outcome = .ok e') es es'
  | [], es', h => by
    rw [simplifyAll] at h
    obtain rfl := Except.ok.inj h
    exact .nil
  | e :: es, es', h => by
    rw [simplifyAll] at h
    obtain ⟨e', he, h⟩ := Run.outcome_bind_eq_ok.1 h
    obtain ⟨es'', hes, h⟩ := Run.outcome_bind_eq_ok.1 h
    obtain rfl := Except.ok.inj h
    exact .cons he (forall₂_of_simplifyAll hes)

/-- Constants have the same value in every store. -/
theorem Expr.evaluateAll_of_isConstant (s s' : Store α) {es : List (Expr α)}
    (h : es.all isConstant) : Expr.evaluateAll s es = Expr.evaluateAll s' es := by
  simp only [evaluateAll_eq_map]
  refine List.map_congr_left fun e he => ?_
  cases e with
  | constant x => rw [evaluate_constant, evaluate_constant]
  | _ => simpa [isConstant] using List.all_eq_true.1 h _ he

/-- A call with simplified arguments keeps its outcome if it is worked out. -/
theorem Expr.agree_call_of_simplify {f : Function α} {es : List (Expr α)} {e' : Expr α}
    (hf : f.IsFoldable)
    (h : (if f.deterministic && es.all isConstant then
        f.call s.time (evaluateAll s es) >>= fun x => pure (.constant x)
      else pure (.call f es) : Run (Expr α)).outcome = .ok e') :
    (e'.evaluate s').Agree (f.call s'.time (evaluateAll s' es)) := by
  split at h
  · next hfold =>
    -- The call was worked out at the time of `s`, and a pure function does not look at the time.
    obtain ⟨hdet, hconst⟩ : f.deterministic ∧ es.all isConstant := by simpa using hfold
    obtain ⟨x, hx, h⟩ := Run.outcome_bind_eq_ok.1 h
    obtain rfl := Except.ok.inj h
    rw [evaluateAll_of_isConstant s s' hconst,
      Function.call_eq_of_isPure (hf hdet) s.time s'.time] at hx
    rw [evaluate_constant]
    exact hx.symm
  · obtain rfl := Except.ok.inj h
    rw [evaluate]

mutual

/-- A simplified tree agrees with the tree that it came from. -/
theorem Expr.agree_of_simplify [ExactArithmetic α] (hs : s.Assigns s') :
    ∀ (e : Expr α) {e' : Expr α}, e.Calls Function.IsFoldable → (e.simplify s).outcome = .ok e' →
      (e'.evaluate s').Agree (e.evaluate s')
  | .constant x, e', _, h => by
    rw [simplify] at h
    obtain rfl := Except.ok.inj h
    rfl
  | .variable v, e', _, h => by
    rw [simplify] at h
    obtain rfl := Except.ok.inj h
    split
    · next hv =>
      rw [evaluate_constant, evaluate, hs v hv]
    · rfl
  | .binary op l r b, e', hc, h => by
    rw [Calls] at hc
    obtain ⟨l', r', hl, hr, rfl⟩ := exists_of_simplify_binary h
    have ihl := agree_of_simplify hs l hc.1 hl
    have ihr := agree_of_simplify hs r hc.2 hr
    rw [evaluate_gather, evaluate_binary, evaluate_binary]
    exact ihl.bind fun x => ihr.bind fun y => .refl _
  | .call f arguments, e', hc, h => by
    rw [Calls] at hc
    rw [simplify] at h
    obtain ⟨arguments', hargs, h⟩ := Run.outcome_bind_eq_ok.1 h
    have ih := agree_of_simplifyAll hs arguments hc.2 hargs
    have hcall := Function.agree_call f s'.time ih
    rw [evaluate]
    exact (agree_call_of_simplify hc.1 h).trans hcall

/-- Simplified trees agree one by one with those that they came from. -/
theorem Expr.agree_of_simplifyAll [ExactArithmetic α] (hs : s.Assigns s') :
    ∀ (es : List (Expr α)) {es' : List (Expr α)},
    Expr.AllCall Function.IsFoldable es →
      (Expr.simplifyAll s es).outcome = .ok es' →
        List.Forall₂ Run.Agree (Expr.evaluateAll s' es') (Expr.evaluateAll s' es)
  | [], es', _, h => by
    rw [simplifyAll] at h
    obtain rfl := Except.ok.inj h
    rw [evaluateAll]
    exact .nil
  | e :: es, es', hc, h => by
    rw [AllCall] at hc
    rw [simplifyAll] at h
    obtain ⟨e', he, h⟩ := Run.outcome_bind_eq_ok.1 h
    obtain ⟨es'', hes, h⟩ := Run.outcome_bind_eq_ok.1 h
    obtain rfl := Except.ok.inj h
    rw [evaluateAll, evaluateAll]
    exact .cons (agree_of_simplify hs e hc.1 he) (agree_of_simplifyAll hs es hc.2 hes)

end

/-- Simplification changes neither the value of a tree nor the error that it fails with, whatever
values the variables are given that are not constants. -/
theorem Expr.outcome_evaluate_of_simplify [ExactArithmetic α] {e e' : Expr α}
    (hc : e.Calls Function.IsFoldable)
    (h : (e.simplify s).outcome = .ok e') (hs : s.Assigns s') :
    (e'.evaluate s').outcome = (e.evaluate s').outcome :=
  agree_of_simplify hs e hc h

end Simplify

/-- A constant is moved out of a chain and a condition is kept, since one of its branches fails. -/
theorem Expr.outcome_evaluate_of_simplify_conditional :
    let count : Variable := ⟨"count", 0⟩
    let x : Variable := ⟨"x", 1⟩
    let store (y : ℚ) : Store ℚ := ⟨#[⟨2, true⟩, ⟨y, false⟩], 0⟩
    let fail : Function ℚ := ⟨"fail", .fixed 0 (.result (.error (.reported "no"))), false, 0⟩
    let e : Expr ℚ := .call conditional [.binary .lessThan (.variable x) (.constant 3) false,
      .binary .add (.variable count) (.binary .add (.variable x) (.constant 3) true) false,
      .call fail []]
    ∃ e', (e.simplify (store 0)).outcome = .ok e' ∧ e'.text = "if((x < 3), (5 + x), fail())" ∧
      (e'.evaluate (store 1)).outcome = (e.evaluate (store 1)).outcome := by
  intro count x store fail e
  have htext : (e.simplify (store 0)).outcome.toOption.map Expr.text =
      some "if((x < 3), (5 + x), fail())" := by
    decide +kernel
  cases h : (e.simplify (store 0)).outcome with
  | error => simp [h, Except.toOption] at htext
  | ok e' =>
    refine ⟨e', rfl, by simpa [h, Except.toOption] using htext, ?_⟩
    refine outcome_evaluate_of_simplify ?_ h ?_
    · have hfail : fail.IsFoldable := fun _ => trivial
      simp [e, Calls, AllCall, isFoldable_conditional, hfail]
    · rintro ⟨name, _ | _ | i⟩ hv
      · rfl
      · cases hv
      · cases hv

end Reckon
