import Reckon.Proofs.Compiling
import Reckon.Proofs.Folding

/-!
# What simplification enters

The bodies of functions may be anything that a host has thought of, so that it matters which of them
are entered when a formula is compiled and how often. Only folding enters any: a call of a
deterministic function whose simplified arguments are constants enters the body of this function
once, or not at all if the number of the arguments is wrong or one of them is no proper number. The
calls of a tree have their turns one after another, those in the arguments of a call before it, and
if one of them fails then the rest of them have none.

## Main definitions

* `Call`, `Expr.callsIn` — the calls in a tree, in the order of their turns.
* `Call.entered` — what simplification enters at a call.

## Main statements

* `Function.entered_call` — a call with constant arguments enters at most the body of its function.
* `Expr.enters_simplify` — simplification enters what its calls do, up to the first that fails.
* `Workspace.entersToFold_compile` — compiling a text enters what the simplification of it does.
-/

namespace Reckon

variable {α : Type}

/-! ### Records -/

namespace Run

variable {β γ : Type} {r : Run β} {ms ns : List Nat}

theorem entered_bind_ok {f : β → Run γ} {b : β} (h : r.outcome = .ok b) :
    (r >>= f).entered = r.entered ++ (f b).entered := by
  rcases r with ⟨outcome, entered⟩
  obtain rfl : outcome = .ok b := h
  rfl

theorem entered_bind_error {f : β → Run γ} {e : Error} (h : r.outcome = .error e) :
    (r >>= f).entered = r.entered := by
  rcases r with ⟨outcome, entered⟩
  obtain rfl : outcome = .error e := h
  rfl

/-- A run enters the given functions in order. If it fails, it may have come to the first of them
only. -/
structure Enters (r : Run β) (ns : List Nat) : Prop where
  isPrefix : r.entered <+: ns
  eq_of_succeeds : r.Succeeds → r.entered = ns

theorem Enters.self (r : Run β) : r.Enters r.entered := ⟨List.prefix_rfl, fun _ => rfl⟩

theorem Enters.pure (b : β) : (pure b : Run β).Enters [] := Enters.self _

theorem Enters.bind {f : β → Run γ} (h : r.Enters ms)
    (hf : ∀ b, r.outcome = .ok b → (f b).Enters ns) : (r >>= f).Enters (ms ++ ns) := by
  cases hr : r.outcome with
  | error e =>
    refine ⟨?_, fun ⟨c, hc⟩ => ?_⟩
    · rw [entered_bind_error hr]
      exact h.isPrefix.trans (List.prefix_append ms ns)
    · rw [outcome_bind, hr] at hc
      cases hc
  | ok b =>
    have hms : r.entered = ms := h.eq_of_succeeds ⟨b, hr⟩
    have hb := hf b hr
    refine ⟨?_, fun ⟨c, hc⟩ => ?_⟩
    · rw [entered_bind_ok hr, hms]
      exact (List.prefix_append_right_inj ms).2 hb.isPrefix
    · rw [outcome_bind, hr] at hc
      rw [entered_bind_ok hr, hms, hb.eq_of_succeeds ⟨c, hc⟩]

end Run

/-! ### Calls of functions -/

/-- Answering requests enters no more than the arguments do. -/
theorem Demand.entered_run {n : Nat} {time : α} {args : Fin n → Run α} (d : Demand α n)
    (h : ∀ i, (args i).entered = []) : (d.run time args).entered = [] := by
  induction d with
  | result => rfl
  | argument i resume ih =>
    rw [run, h i, ih]
    rfl
  | clock resume ih => exact ih _

namespace Function

variable {f : Function α} {time : α} {args : List (Run α)}

theorem entered_entering {r : Run α} (h : r.entered = []) :
    (f.entering r).entered = [f.serial] := by
  show [f.serial] ++ r.entered = _
  rw [h, List.append_nil]

variable [Arithmetic α]

theorem entered_properly {a : Run α} {resume : α → Run α} {ns : List Nat} (ha : a.entered = [])
    (hr : ∀ x, (resume x).entered = [] ∨ (resume x).entered = ns) :
    (properly a resume).entered = [] ∨ (properly a resume).entered = ns := by
  rw [properly]
  cases hx : a.outcome with
  | error e => exact .inl ((Run.entered_bind_error hx).trans ha)
  | ok x =>
    rw [Run.entered_bind_ok hx, ha, List.nil_append]
    split
    · exact .inl rfl
    · exact hr x

/-- A call whose arguments enter nothing enters the body of its function, or nothing. -/
theorem entered_call (h : ∀ a ∈ args, a.entered = []) :
    (f.call time args).entered = [] ∨ (f.call time args).entered = [f.serial] := by
  rw [call]
  split
  · split
    · next a =>
      exact entered_properly (h a (by simp)) fun x => .inr (entered_entering rfl)
    · exact .inl rfl
  · split
    · next a b =>
      refine entered_properly (h a (by simp)) fun x => ?_
      exact entered_properly (h b (by simp)) fun y => .inr (entered_entering rfl)
    · exact .inl rfl
  · split
    · exact .inr (entered_entering (Demand.entered_run _ fun i => h _ (List.get_mem _ _)))
    · exact .inl rfl
  · exact .inr (entered_entering (Demand.entered_run _ fun i => h _ (List.get_mem _ _)))

end Function

/-! ### Calls in a tree -/

/-- A call in a tree: a function with its arguments as they are written. -/
structure Call (α : Type) where
  function : Function α
  arguments : List (Expr α)

mutual

/-- The calls in a tree, as often as they occur: those in the left operand before those in the right
one, and those in the arguments of a call before the call. -/
def Expr.callsIn : Expr α → List (Call α)
  | .constant _ => []
  | .variable _ => []
  | .binary _ l r _ => l.callsIn ++ r.callsIn
  | .call f arguments => Expr.callsInAll arguments ++ [⟨f, arguments⟩]

/-- The calls in several trees. -/
def Expr.callsInAll : List (Expr α) → List (Call α)
  | [] => []
  | e :: es => e.callsIn ++ Expr.callsInAll es

end

variable [Arithmetic α] {s : Store α}

namespace Call

/-- A call is folded: its function is deterministic, and its arguments are simplified to
constants. -/
def IsFolded (s : Store α) (c : Call α) : Prop :=
  c.function.deterministic ∧
    ∃ es, (Expr.simplifyAll s c.arguments).outcome = .ok es ∧ es.all Expr.isConstant

/-- What simplification enters at a call, apart from the calls in its arguments. -/
def entered (s : Store α) (c : Call α) : List Nat :=
  match (Expr.simplifyAll s c.arguments).outcome with
  | .ok es =>
    if c.function.deterministic && es.all Expr.isConstant then
      (c.function.call s.time (Expr.evaluateAll s es)).entered
    else []
  | .error _ => []

/-- A call that is folded enters the body of its function or nothing, and any other call nothing. -/
theorem entered_cases (c : Call α) :
    c.entered s = [] ∨ c.IsFolded s ∧ c.entered s = [c.function.serial] := by
  rw [entered]
  split
  · next es hes =>
    split
    · next hfold =>
      obtain ⟨hdet, hconst⟩ := Bool.and_eq_true_iff.1 hfold
      have hsilent : ∀ a ∈ Expr.evaluateAll s es, a.entered = [] := by
        rw [Expr.evaluateAll_eq_map, List.forall_mem_map]
        intro e he
        cases e with
        | constant x => rw [Expr.evaluate_constant]; rfl
        | _ => cases List.all_eq_true.1 hconst _ he
      exact (Function.entered_call hsilent).imp_right fun h => ⟨⟨hdet, es, hes, hconst⟩, h⟩
    · exact .inl rfl
  · exact .inl rfl

/-- A function is entered at most as often as it is called, and never if it is not
deterministic. -/
theorem count_entered_le (k : Nat) (cs : List (Call α)) :
    (cs.flatMap (entered s)).count k ≤
      cs.countP fun c => c.function.deterministic && c.function.serial == k := by
  induction cs with
  | nil => exact le_rfl
  | cons c cs ih =>
    rw [List.flatMap_cons, List.count_append, List.countP_cons, Nat.add_comm]
    refine Nat.add_le_add ih ?_
    rcases c.entered_cases (s := s) with h | ⟨⟨hdet, -⟩, h⟩
    · rw [h]
      exact Nat.zero_le _
    · rw [h, hdet, List.count_singleton, Bool.true_and]

end Call

namespace Expr

mutual

/-- Simplification enters what the calls in a tree do. -/
theorem enters_simplify : ∀ e : Expr α, (e.simplify s).Enters (e.callsIn.flatMap (Call.entered s))
  | .constant x => by
    rw [simplify, callsIn]
    exact .pure _
  | .variable v => by
    rw [simplify, callsIn]
    exact .pure _
  | .binary op l r b => by
    rw [simplify, callsIn, List.flatMap_append]
    refine (enters_simplify l).bind fun l' _ => ?_
    rw [← List.append_nil (r.callsIn.flatMap _)]
    exact (enters_simplify r).bind fun r' _ => .pure _
  | .call f es => by
    rw [simplify, callsIn, List.flatMap_append, List.flatMap_singleton]
    refine (enters_simplifyAll es).bind fun es' hes => ?_
    rw [Call.entered, hes]
    dsimp only
    split
    · rw [← List.append_nil (f.call s.time (evaluateAll s es')).entered]
      exact (Run.Enters.self _).bind fun x _ => .pure _
    · exact .pure _

/-- The same for several trees. -/
theorem enters_simplifyAll : ∀ es : List (Expr α),
    (simplifyAll s es).Enters ((callsInAll es).flatMap (Call.entered s))
  | [] => by
    rw [simplifyAll, callsInAll]
    exact .pure _
  | e :: es => by
    rw [simplifyAll, callsInAll, List.flatMap_append]
    refine (enters_simplify e).bind fun e' _ => ?_
    rw [← List.append_nil ((callsInAll es).flatMap _)]
    exact (enters_simplifyAll es).bind fun es' _ => .pure _

end

end Expr

/-! ### Texts -/

/-- The record of a run has nothing but the bodies of functions that are entered to fold calls of a
tree: every call enters one body at most, namely that of its function and if it is folded. -/
structure Run.EntersToFold {β : Type} (r : Run β) (s : Store α) (e : Expr α) : Prop where
  enters : r.Enters (e.callsIn.flatMap (Call.entered s))
  isFolded (c : Call α) (hc : c ∈ e.callsIn) :
    c.entered s = [] ∨ c.IsFolded s ∧ c.entered s = [c.function.serial]
  entries_le (k : Nat) :
    r.entries k ≤ e.callsIn.countP fun c => c.function.deterministic && c.function.serial == k

theorem Run.Enters.entersToFold {β : Type} {r : Run β} {e : Expr α}
    (h : r.Enters (e.callsIn.flatMap (Call.entered s))) : r.EntersToFold s e :=
  ⟨h, fun c _ => c.entered_cases,
    fun k => (h.isPrefix.sublist.count_le k).trans (Call.count_entered_le k e.callsIn)⟩

/-- Nothing is entered by reading a text as a tree, nor after this tree has been simplified. -/
theorem Workspace.enters_read [Numeral α] {w : Workspace α} {tokens : Tokens} {e : Expr α}
    {rest : List Token} (h : w.parse tokens = .ok (e, rest)) :
    (w.read tokens).Enters (e.callsIn.flatMap (Call.entered w.store)) := by
  rw [read, h, ← List.nil_append (e.callsIn.flatMap _)]
  refine (Run.Enters.self _).bind fun p hp => ?_
  obtain rfl := Except.ok.inj hp
  rw [← List.append_nil (e.callsIn.flatMap _)]
  refine (Expr.enters_simplify e).bind fun e' _ => ?_
  exact (Run.Enters.self (.ofExcept (finish tokens.ending rest))).bind fun _ _ => .pure e'

/-- Simplification enters bodies of functions only to fold calls, whether it fails or not, and so
does compiling a text. -/
theorem Workspace.entersToFold_compile [Numeral α] :
    (∀ (s : Store α) (e : Expr α), (e.simplify s).EntersToFold s e) ∧
      ∀ (w : Workspace α) (settings : Settings) (source : Source),
        (w.compile settings source).1.entered = [] ∨
          ∃ e rest,
            (w.prepared settings).parse (Lexer.ofSource settings source).tokens = .ok (e, rest) ∧
            (w.compile settings source).1.EntersToFold (w.prepared settings).store e := by
  refine ⟨fun s e => (Expr.enters_simplify e).entersToFold, fun w settings source => ?_⟩
  show ((w.prepared settings).read (Lexer.ofSource settings source).tokens).entered = [] ∨ _
  cases hparse : (w.prepared settings).parse (Lexer.ofSource settings source).tokens with
  | error err =>
    refine .inl ?_
    rw [read, hparse]
    rfl
  | ok p =>
    obtain ⟨e, rest⟩ := p
    exact .inr ⟨e, rest, rfl, (enters_read hparse).entersToFold⟩

/-- The dice are not thrown, and the sum behind the call that fails is not worked out. -/
example :
    let increment : Function ℚ := ⟨"inc", .unary (· + 1), true, 1⟩
    let dice : Function ℚ := ⟨"dice", .unary id, false, 2⟩
    let fail : Function ℚ := ⟨"fail", .fixed 0 (.result (.error (.reported "no"))), true, 3⟩
    let e : Expr ℚ := .binary .add
      (.binary .add (.call dice [.call increment [.constant 1]])
        (.call increment [.call increment [.constant 2]]) false)
      (.binary .add (.call fail []) (.call increment [.constant 4]) false) false
    (e.simplify (.empty 0)).entered = [1, 1, 1, 3] ∧ e.callsIn.length = 6 := by
  decide +kernel

end Reckon
