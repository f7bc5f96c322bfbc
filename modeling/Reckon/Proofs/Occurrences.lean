import Reckon.Proofs.Chains
import Reckon.Proofs.Dependence

/-!
# What may vary in a tree

The value of a formula may change for two reasons only: a variable is given another value, or a
function that is not deterministic comes to another result. Simplification moves operands around and
replaces whole parts of a tree, but nothing that may vary is lost by it, doubled or brought into
another order. Of two operands that change places, one is a constant; and what is replaced by a
constant is closed, so that nothing in it varies.

## Main definitions

* `Varying`, `Expr.varying` — the occurrences of what may vary, from left to right.

## Main statements

* `Expr.varying_eq_nil_iff` — the closed trees are those in which nothing varies.
* `Expr.varying_gather` — gathering two operands keeps what varies in them.
* `Expr.varying_of_simplify` — simplification keeps what varies in a tree.
-/

namespace Reckon

variable {α : Type}

/-- Something in a tree that may come to different results: a variable that is read, or a function
that is called. -/
inductive Varying (α : Type) where
  | read (v : Variable)
  | call (f : Function α)

variable [Arithmetic α] {s : Store α}

mutual

/-- The occurrences, from left to right, of variables that are not constants and of calls of
functions that are not deterministic. A call comes before what occurs in its arguments. -/
def Expr.varying (s : Store α) : Expr α → List (Varying α)
  | .constant _ => []
  | .variable v => if s.isConstant v then [] else [.read v]
  | .binary _ l r _ => l.varying s ++ r.varying s
  | .call f arguments =>
    (if f.deterministic then [] else [.call f]) ++ Expr.varyingOfAll s arguments

/-- The occurrences in several trees. -/
def Expr.varyingOfAll (s : Store α) : List (Expr α) → List (Varying α)
  | [] => []
  | e :: es => e.varying s ++ Expr.varyingOfAll s es

end

namespace Expr

mutual

/-- A tree is closed if and only if nothing in it varies. -/
theorem varying_eq_nil_iff : ∀ {e : Expr α}, e.varying s = [] ↔ e.isClosed s
  | .constant x => by simp [varying, isClosed]
  | .variable v => by simp [varying, isClosed]
  | .binary op l r b => by
    rw [varying, isClosed, List.append_eq_nil_iff, varying_eq_nil_iff, varying_eq_nil_iff,
      Bool.and_eq_true]
  | .call f es => by
    rw [varying, isClosed, List.append_eq_nil_iff, varyingOfAll_eq_nil_iff, Bool.and_eq_true]
    simp

/-- The same for several trees. -/
theorem varyingOfAll_eq_nil_iff : ∀ {es : List (Expr α)}, varyingOfAll s es = [] ↔ allClosed s es
  | [] => by simp [varyingOfAll, allClosed]
  | e :: es => by
    rw [varyingOfAll, allClosed, List.append_eq_nil_iff, varying_eq_nil_iff,
      varyingOfAll_eq_nil_iff, Bool.and_eq_true]

end

variable {e e' l r : Expr α} {op : Operator}

@[simp] theorem varying_constant (x : α) : (constant x).varying s = [] := by
  rw [varying]

@[simp] theorem varying_binary {b : Bool} :
    (binary op l r b).varying s = l.varying s ++ r.varying s := by
  rw [varying]

/-- Gathering two operands keeps what varies in them, and in this order. -/
theorem varying_gather (b : Bool) :
    (gather op l r b).varying s = l.varying s ++ r.varying s := by
  have h := gathering_gather op l r b
  generalize gather op l r b = e at h ⊢
  cases h with
  | fold => simp
  | merge => simp
  | mergeSwapped => simp
  | rotate => simp
  | swap => simp
  | keep => simp

mutual

/-- What varies in a simplified tree is what varies in the tree that it came from: the same
variables and the same calls, as often and in the same order. -/
theorem varying_simplify : ∀ (e : Expr α) {e' : Expr α},
    (e.simplify s).outcome = .ok e' → e'.varying s = e.varying s
  | .constant x, e', h => by
    rw [simplify] at h
    obtain rfl := Except.ok.inj h
    rfl
  | .variable v, e', h => by
    rw [simplify] at h
    obtain rfl := Except.ok.inj h
    rw [varying]
    split
    · rw [varying]
    · next hv => rw [varying, if_neg hv]
  | .binary op l r b, e', h => by
    obtain ⟨l', r', hl, hr, rfl⟩ := exists_of_simplify_binary h
    rw [varying_gather, varying_binary, varying_simplify l hl, varying_simplify r hr]
  | .call f es, e', h => by
    have hconst := isConstant_of_simplify h
    rw [simplify] at h
    obtain ⟨es', hes, h⟩ := Run.outcome_bind_eq_ok.1 h
    split at h
    · -- The call has become a constant, so that it was closed.
      obtain ⟨x, -, h⟩ := Run.outcome_bind_eq_ok.1 h
      obtain rfl := Except.ok.inj h
      rw [varying_constant, varying_eq_nil_iff.2 (hconst ▸ rfl)]
    · obtain rfl := Except.ok.inj h
      rw [varying, varying, varying_simplifyAll es hes]

/-- The same for several trees. -/
theorem varying_simplifyAll : ∀ (es : List (Expr α)) {es' : List (Expr α)},
    (simplifyAll s es).outcome = .ok es' → varyingOfAll s es' = varyingOfAll s es
  | [], es', h => by
    rw [simplifyAll] at h
    obtain rfl := Except.ok.inj h
    rfl
  | e :: es, es', h => by
    rw [simplifyAll] at h
    obtain ⟨e', he, h⟩ := Run.outcome_bind_eq_ok.1 h
    obtain ⟨es'', hes, h⟩ := Run.outcome_bind_eq_ok.1 h
    obtain rfl := Except.ok.inj h
    rw [varyingOfAll, varyingOfAll, varying_simplify e he, varying_simplifyAll es hes]

end

/-- A tree is simplified to a constant if and only if nothing in it varies. -/
theorem isConstant_iff_of_simplify (h : (e.simplify s).outcome = .ok e') :
    e'.isConstant ↔ e.varying s = [] := by
  rw [isConstant_of_simplify h, varying_eq_nil_iff]

/-- Simplification neither loses anything that varies, nor doubles it, nor changes the order. -/
theorem varying_of_simplify (h : (e.simplify s).outcome = .ok e') :
    e'.varying s = e.varying s :=
  varying_simplify e h

/-- The constants come to the front, past two calls and two variables that stay in order. -/
theorem varying_of_simplify_dice :
    let k : Variable := ⟨"k", 0⟩
    let x : Variable := ⟨"x", 1⟩
    let y : Variable := ⟨"y", 2⟩
    let s : Store ℚ := ⟨#[⟨2, true⟩, ⟨7, false⟩, ⟨8, false⟩], 0⟩
    let dice : Function ℚ := ⟨"dice", .unary id, false, 0⟩
    let e : Expr ℚ := .binary .add
      (.binary .add (.call dice [.variable x]) (.constant 3) false)
      (.binary .add (.binary .multiply (.variable y) (.variable k) false)
        (.binary .add (.call dice [.binary .multiply (.constant 5) (.variable k) false])
          (.constant 4) true) true) false
    ∃ e', (e.simplify s).outcome = .ok e' ∧
      e'.text = "(4 + ((3 + dice(x)) + ((2 * y) + dice(10))))" ∧
      e.varying s = [.call dice, .read x, .read y, .call dice] ∧ e'.varying s = e.varying s := by
  intro k x y s dice e
  have htext : (e.simplify s).outcome.toOption.map text =
      some "(4 + ((3 + dice(x)) + ((2 * y) + dice(10))))" := by
    decide +kernel
  have hvarying : e.varying s = [.call dice, .read x, .read y, .call dice] := by
    simp [e, varying, varyingOfAll, s, k, x, y, dice, Store.isConstant, Store.cell]
  cases h : (e.simplify s).outcome with
  | error => simp [h, Except.toOption] at htext
  | ok e' =>
    exact ⟨e', rfl, by simpa [h, Except.toOption] using htext, hvarying, varying_of_simplify h⟩

end Expr

end Reckon
