import Reckon.Number.Double
import Reckon.Proofs.Chains

/-!
# Regrouping doubles

The operands of a sum of doubles may be swapped, but not regrouped: which two of three operands are
added first makes a difference. Simplification regroups the operands of a chain all the same, when
it brings constants together. Folding, swapping and working out calls never change a value. So a
simplified tree has the value of the tree that it came from if the nodes that are regrouped do, and
only those matter that are evaluated: a condition does not evaluate the branch that is not taken.

## Main definitions

* `Expr.visited` — the nodes that are evaluated when a tree is.
* `Expr.Regroups` — a node whose operands are regrouped, and what they come to before and after.
* `Expr.PassesDown` — what holds of a tree and then of everything that is evaluated with it.

## Main statements

* `Double.apply_comm` — sums and products of doubles may be swapped.
* `Expr.outcome_evaluate_gather_cases` — gathering changes a value by nothing but regrouping.
* `Expr.agree_of_regroups` — neither does simplification.
-/

namespace Reckon

variable {α : Type}

/-! ### What is evaluated -/

mutual

/-- The nodes that are evaluated when a tree is, each before its parts. The right operand is
evaluated if the left one has a value, and an argument if the function asks for it. -/
def Expr.visited [Arithmetic α] (s : Store α) : Expr α → List (Expr α)
  | .constant x => [.constant x]
  | .variable v => [.variable v]
  | .binary op l r b =>
    .binary op l r b :: (l.visited s ++ if (l.evaluate s).error?.isNone then r.visited s else [])
  | .call f arguments =>
    .call f arguments :: (f.asked s.time (Expr.evaluateAll s arguments)).flatMap fun i =>
      (Expr.visitedAll s arguments).getD i []

/-- The nodes that are evaluated when each of several trees is. -/
def Expr.visitedAll [Arithmetic α] (s : Store α) : List (Expr α) → List (List (Expr α))
  | [] => []
  | e :: es => e.visited s :: Expr.visitedAll s es

end

/-! ### What is regrouped -/

/-- Sums and products of numbers that may be swapped, but perhaps not regrouped. -/
class CommutativeArithmetic (α : Type) [Arithmetic α] : Prop where
  apply_comm {op : Operator} (hop : op.isCommutative) (x y : α) :
    Arithmetic.apply op x y = Arithmetic.apply op y x

/-- A run without an error has a result. -/
theorem Run.succeeds_of_error? {β : Type} {r : Run β} (h : r.error?.isNone) : r.Succeeds := by
  unfold error? at h
  split at h
  · next b hb => exact ⟨b, hb⟩
  · cases h

namespace Expr

open Arithmetic

variable [Arithmetic α] {s s' : Store α} {op : Operator} {l r e : Expr α} {x y : α}

/-- Gathering two operands regroups them. They come to the first number as they are written, and
regrouped to the second one. -/
inductive Regrouping (s : Store α) (op : Operator) : Expr α → Expr α → α → α → Prop
  /-- A constant is combined with the one at the front of the right operand. -/
  | merge {x y z rest b} (hop : op.isCommutative) (hz : (rest.evaluate s).outcome = .ok z) :
    Regrouping s op (constant x) (binary op (constant y) rest b)
      (apply op x (apply op y z)) (apply op (apply op x y) z)
  /-- The same for a constant that has changed places with the left operand. -/
  | mergeSwapped {x y z rest b} (hop : op.isCommutative)
    (hz : (rest.evaluate s).outcome = .ok z) :
    Regrouping s op (binary op (constant y) rest b) (constant x)
      (apply op (apply op y z) x) (apply op (apply op x y) z)
  /-- The left operand is combined with what follows the constant. -/
  | rotate {l x y z rest b} (hop : op.isCommutative) (hl : l.isConstant = false)
    (hx : (l.evaluate s).outcome = .ok x) (hz : (rest.evaluate s).outcome = .ok z) :
    Regrouping s op l (binary op (constant y) rest b)
      (apply op x (apply op y z)) (apply op y (apply op x z))

/-- Simplification regroups the operands of a node. With the values of `s'`, they come to the first
number as they are written, and regrouped to the second one. -/
def Regroups (s s' : Store α) : Expr α → α → α → Prop
  | binary op l r _, p, q => ∃ l' r', (l.simplify s).outcome = .ok l' ∧
      (r.simplify s).outcome = .ok r' ∧ Regrouping s' op l' r' p q
  | _, _, _ => False

theorem outcome_evaluate_constant : ((constant x).evaluate s).outcome = .ok x := by
  rw [evaluate_constant]
  rfl

theorem outcome_evaluate_binary {b : Bool} (hx : (l.evaluate s).outcome = .ok x)
    (hy : (r.evaluate s).outcome = .ok y) :
    ((binary op l r b).evaluate s).outcome = .ok (apply op x y) := by
  rw [evaluate_binary, Run.outcome_bind_of_ok hx, Run.outcome_bind_of_ok hy]
  rfl

theorem exists_of_outcome_evaluate_binary {b : Bool} {v : α}
    (h : ((binary op l r b).evaluate s).outcome = .ok v) :
    ∃ x y, (l.evaluate s).outcome = .ok x ∧ (r.evaluate s).outcome = .ok y ∧
      apply op x y = v := by
  rw [evaluate_binary] at h
  obtain ⟨x, hx, h⟩ := Run.outcome_bind_eq_ok.1 h
  obtain ⟨y, hy, h⟩ := Run.outcome_bind_eq_ok.1 h
  exact ⟨x, y, hx, hy, Except.ok.inj h⟩

/-- A chain with a constant at its front has the value of that constant with the rest. -/
theorem exists_of_outcome_evaluate_front {b : Bool} {v : α}
    (h : ((binary op (constant y) r b).evaluate s).outcome = .ok v) :
    ∃ z, (r.evaluate s).outcome = .ok z ∧ apply op y z = v := by
  obtain ⟨y', z, hy, hz, hv⟩ := exists_of_outcome_evaluate_binary h
  obtain rfl := Except.ok.inj (outcome_evaluate_constant.symm.trans hy)
  exact ⟨z, hz, hv⟩

/-- What is gathered is regrouped, or else it has the value of the operator on its operands. -/
theorem outcome_evaluate_gather_cases [CommutativeArithmetic α] (op : Operator) (b : Bool)
    (hx : (l.evaluate s).outcome = .ok x) (hy : (r.evaluate s).outcome = .ok y) :
    (∃ q, Regrouping s op l r (apply op x y) q ∧
        ((gather op l r b).evaluate s).outcome = .ok q) ∨
      (∀ p q, ¬Regrouping s op l r p q) ∧
        ((gather op l r b).evaluate s).outcome = .ok (apply op x y) := by
  have h := gathering_gather op l r b
  generalize gather op l r b = e at h ⊢
  cases h with
  | fold =>
    obtain rfl := Except.ok.inj (outcome_evaluate_constant.symm.trans hx)
    obtain rfl := Except.ok.inj (outcome_evaluate_constant.symm.trans hy)
    refine .inr ⟨?_, outcome_evaluate_constant⟩
    rintro p q ⟨⟩
  | merge hop =>
    obtain rfl := Except.ok.inj (outcome_evaluate_constant.symm.trans hx)
    obtain ⟨z, hz, rfl⟩ := exists_of_outcome_evaluate_front hy
    exact .inl ⟨_, .merge hop hz, outcome_evaluate_binary outcome_evaluate_constant hz⟩
  | mergeSwapped hop =>
    obtain rfl := Except.ok.inj (outcome_evaluate_constant.symm.trans hy)
    obtain ⟨z, hz, rfl⟩ := exists_of_outcome_evaluate_front hx
    exact .inl ⟨_, .mergeSwapped hop hz, outcome_evaluate_binary outcome_evaluate_constant hz⟩
  | rotate hop hl =>
    obtain ⟨z, hz, rfl⟩ := exists_of_outcome_evaluate_front hy
    exact .inl ⟨_, .rotate hop hl hx hz,
      outcome_evaluate_binary outcome_evaluate_constant (outcome_evaluate_binary hx hz)⟩
  | swap hop hl =>
    refine .inr ⟨fun p q h => ?_, ?_⟩
    · cases h with
      | mergeSwapped => simp at hl
    · rw [CommutativeArithmetic.apply_comm hop x y]
      exact outcome_evaluate_binary hy hx
  | keep hc hr =>
    refine .inr ⟨fun p q h => ?_, outcome_evaluate_binary hx hy⟩
    cases h with
    | merge hop | mergeSwapped hop | rotate hop => simpa using hr hop

/-- Operands that are regrouped come to one number in the new grouping. -/
theorem outcome_evaluate_gather_of_regrouping {p q : α} (b : Bool) (h : Regrouping s op l r p q) :
    ((gather op l r b).evaluate s).outcome = .ok q := by
  have hg := gathering_gather op l r b
  generalize gather op l r b = e at hg ⊢
  cases h with
  | merge hop hz =>
    cases hg with
    | merge => exact outcome_evaluate_binary outcome_evaluate_constant hz
    | rotate _ hl => cases hl
    | keep _ hr => simpa using hr hop
  | mergeSwapped hop hz =>
    cases hg with
    | mergeSwapped => exact outcome_evaluate_binary outcome_evaluate_constant hz
    | swap _ hl => simp at hl
    | keep _ hr => simpa using hr hop
  | rotate hop hl hx hz =>
    cases hg with
    | merge => cases hl
    | rotate =>
      exact outcome_evaluate_binary outcome_evaluate_constant (outcome_evaluate_binary hx hz)
    | keep _ hr => simpa using hr hop

/-- Gathering operands changes their value by nothing but regrouping. -/
theorem outcome_evaluate_gather [CommutativeArithmetic α] {b : Bool}
    (hx : (l.evaluate s).outcome = .ok x) (hy : (r.evaluate s).outcome = .ok y)
    (hexact : ∀ p q, Regrouping s op l r p q → q = p) :
    ((gather op l r b).evaluate s).outcome = .ok (apply op x y) := by
  obtain ⟨q, hregrouping, hq⟩ | ⟨-, hvalue⟩ := outcome_evaluate_gather_cases op b hx hy
  · rw [hq, hexact _ q hregrouping]
  · exact hvalue

/-- A node has a value, and its operands come to that value also if they are regrouped. -/
structure IsFaithful (s s' : Store α) (t : Expr α) : Prop where
  succeeds : (t.evaluate s').Succeeds
  exact_of_regroups : ∀ p q, t.Regroups s s' p q → q = p

theorem visitedAll_eq_map (es : List (Expr α)) : visitedAll s es = es.map (visited s) := by
  induction es with
  | nil => rw [visitedAll, List.map_nil]
  | cons e es ih => rw [visitedAll, ih, List.map_cons]

theorem mem_visited_self (e : Expr α) : e ∈ e.visited s := by
  cases e <;> rw [visited] <;> exact List.mem_cons_self

/-- If a node has a value, then both of its operands are evaluated. -/
theorem visited_binary {b : Bool} (h : ((binary op l r b).evaluate s).Succeeds) :
    (binary op l r b).visited s = binary op l r b :: (l.visited s ++ r.visited s) := by
  obtain ⟨v, hv⟩ := h
  obtain ⟨x, y, hx, -, -⟩ := exists_of_outcome_evaluate_binary hv
  rw [visited, Run.error?, hx]
  rfl

/-- What is evaluated of an argument that a call asks for is evaluated of the call. -/
theorem mem_visited_call {f : Function α} {es : List (Expr α)} {i : Nat} {t : Expr α}
    (hi : i < es.length) (hasked : i ∈ f.asked s.time (evaluateAll s es))
    (ht : t ∈ es[i].visited s) : t ∈ (call f es).visited s := by
  rw [visited, visitedAll_eq_map]
  refine List.mem_cons_of_mem _ (List.mem_flatMap.2 ⟨i, hasked, ?_⟩)
  rwa [List.getD_eq_getElem?_getD, List.getElem?_map, List.getElem?_eq_getElem hi]

/-- What is evaluated of a call, apart from the call, is evaluated of an argument that is asked
for. -/
theorem exists_of_mem_visited_call {f : Function α} {es : List (Expr α)} {t : Expr α}
    (ht : t ∈ (call f es).visited s) : t = call f es ∨
      ∃ i a, i ∈ f.asked s.time (evaluateAll s es) ∧ es[i]? = some a ∧ t ∈ a.visited s := by
  rw [visited, List.mem_cons, List.mem_flatMap] at ht
  refine ht.imp_right fun ⟨i, hasked, ht⟩ => ?_
  rw [visitedAll_eq_map, List.getD_eq_getElem?_getD, List.getElem?_map] at ht
  cases ha : es[i]? with
  | none => simp [ha] at ht
  | some a => exact ⟨i, a, hasked, ha, by simpa [ha] using ht⟩

/-- What holds of a tree also holds of its operands and arguments that are evaluated when it is. -/
structure PassesDown (s : Store α) (P : Expr α → Prop) : Prop where
  left {op l r b} (h : P (binary op l r b)) : P l
  right {op l r b} (h : P (binary op l r b)) (hl : (l.evaluate s).Succeeds) : P r
  argument {f es i a} (h : P (call f es)) (hasked : i ∈ f.asked s.time (evaluateAll s es))
    (ha : es[i]? = some a) : P a

mutual

/-- What passes down from a tree holds of everything that is evaluated when the tree is. -/
theorem PassesDown.of_mem_visited {P : Expr α → Prop} (hP : PassesDown s P) :
    ∀ {e : Expr α}, P e → ∀ t ∈ e.visited s, P t
  | .constant x, he, t, ht => by
    rw [visited, List.mem_singleton] at ht
    exact ht ▸ he
  | .variable v, he, t, ht => by
    rw [visited, List.mem_singleton] at ht
    exact ht ▸ he
  | .binary op l r b, he, t, ht => by
    rw [visited, List.mem_cons, List.mem_append] at ht
    rcases ht with rfl | ht | ht
    · exact he
    · exact hP.of_mem_visited (hP.left he) t ht
    · split at ht
      · next hl => exact hP.of_mem_visited (hP.right he (Run.succeeds_of_error? hl)) t ht
      · cases ht
  | .call f es, he, t, ht => by
    obtain rfl | ⟨i, a, hasked, ha, ht⟩ := exists_of_mem_visited_call ht
    · exact he
    · exact hP.of_mem_visitedAll ha (hP.argument he hasked ha) t ht

/-- The same for several trees. -/
theorem PassesDown.of_mem_visitedAll {P : Expr α → Prop} (hP : PassesDown s P) :
    ∀ {es : List (Expr α)} {i : Nat} {a : Expr α}, es[i]? = some a → P a →
      ∀ t ∈ a.visited s, P t
  | [], i, a, ha, _, _, _ => by simp at ha
  | e :: es, 0, a, ha, he, t, ht => by
    obtain rfl := Option.some.inj ha
    exact hP.of_mem_visited he t ht
  | e :: es, i + 1, a, ha, he, t, ht => by
    rw [List.getElem?_cons_succ] at ha
    exact hP.of_mem_visitedAll ha he t ht

end

mutual

/-- Simplification does not change a value, if the nodes that are evaluated keep theirs when they
are regrouped. -/
theorem agree_of_regroups [CommutativeArithmetic α] (hs : s.Assigns s') :
    ∀ (e : Expr α) {e' : Expr α}, e.Calls Function.IsFoldable → (e.simplify s).outcome = .ok e' →
      (∀ t ∈ e.visited s', IsFaithful s s' t) → (e'.evaluate s').Agree (e.evaluate s')
  | .constant x, e', _, h, _ => by
    rw [simplify] at h
    obtain rfl := Except.ok.inj h
    rfl
  | .variable v, e', _, h, _ => by
    rw [simplify] at h
    obtain rfl := Except.ok.inj h
    split
    · next hv => rw [evaluate_constant, evaluate, hs v hv]
    · rfl
  | .binary op l r b, e', hc, h, hfaithful => by
    rw [Calls] at hc
    obtain ⟨l', r', hl, hr, rfl⟩ := exists_of_simplify_binary h
    have hroot := hfaithful _ (mem_visited_self _)
    obtain ⟨v, hv⟩ := hroot.succeeds
    obtain ⟨x, y, hx, hy, rfl⟩ := exists_of_outcome_evaluate_binary hv
    rw [visited_binary hroot.succeeds, List.forall_mem_cons, List.forall_mem_append] at hfaithful
    have ihl := agree_of_regroups hs l hc.1 hl hfaithful.2.1
    have ihr := agree_of_regroups hs r hc.2 hr hfaithful.2.2
    refine Eq.trans ?_ hv.symm
    exact outcome_evaluate_gather (Eq.trans ihl hx) (Eq.trans ihr hy) fun p q hpq =>
      hroot.exact_of_regroups p q ⟨l', r', hl, hr, hpq⟩
  | .call f es, e', hc, h, hfaithful => by
    rw [Calls] at hc
    rw [simplify] at h
    obtain ⟨es', hes, h⟩ := Run.outcome_bind_eq_ok.1 h
    have ih := agree_of_regroupsAll hs es hc.2 hes
    have hcall :
        (f.call s'.time (evaluateAll s' es)).Agree (f.call s'.time (evaluateAll s' es')) := by
      simp only [evaluateAll_eq_map]
      -- Nothing is known about an argument that is not asked for, and nothing needs to be.
      refine Function.agree_call_of_asked (by simpa using ih.length_eq) fun i hasked hi hi' => ?_
      rw [List.getElem_map, List.getElem_map]
      rw [List.length_map] at hi hi'
      rw [← evaluateAll_eq_map] at hasked
      exact (ih.get hi hi' fun t ht => hfaithful t (mem_visited_call hi hasked ht)).symm
    rw [evaluate]
    exact (agree_call_of_simplify hc.1 h).trans hcall.symm

/-- The same for several trees, each on its own. -/
theorem agree_of_regroupsAll [CommutativeArithmetic α] (hs : s.Assigns s') :
    ∀ (es : List (Expr α)) {es' : List (Expr α)}, AllCall Function.IsFoldable es →
      (simplifyAll s es).outcome = .ok es' →
        List.Forall₂ (fun e e' => (∀ t ∈ e.visited s', IsFaithful s s' t) →
          (e'.evaluate s').Agree (e.evaluate s')) es es'
  | [], es', _, h => by
    rw [simplifyAll] at h
    obtain rfl := Except.ok.inj h
    exact .nil
  | e :: es, es', hc, h => by
    rw [AllCall] at hc
    rw [simplifyAll] at h
    obtain ⟨e', he, h⟩ := Run.outcome_bind_eq_ok.1 h
    obtain ⟨es'', hes, h⟩ := Run.outcome_bind_eq_ok.1 h
    obtain rfl := Except.ok.inj h
    exact .cons (agree_of_regroups hs e hc.1 he) (agree_of_regroupsAll hs es hc.2 hes)

end

end Expr

/-! ### Doubles -/

namespace Double

open Float.Model (UnpackedFloat Format)
open Float.Model.UnpackedFloat (Sign normalize decreaseExponent roundWithAccuracy)

theorem sign_mul_comm (s t : Sign) : s * t = t * s := by
  cases s <;> cases t <;> rfl

theorem unpacked_add_comm (f : Format) (x y : UnpackedFloat) :
    UnpackedFloat.add f x y = UnpackedFloat.add f y x := by
  cases x with
  | notANumber => cases y <;> rfl
  | infinity s =>
    cases y with
    | infinity t => cases s <;> cases t <;> rfl
    | _ => rfl
  | zero s =>
    cases y with
    | zero t => cases s <;> cases t <;> rfl
    | _ => rfl
  | finite s m e hm =>
    cases y with
    | finite t n e' hn =>
      -- Both are brought to the smaller exponent and added as integers.
      show normalize f (s.apply (decreaseExponent m e (min e e')).1 +
          t.apply (decreaseExponent n e' (min e e')).1) (min e e') .positive =
        normalize f (t.apply (decreaseExponent n e' (min e' e)).1 +
          s.apply (decreaseExponent m e (min e' e)).1) (min e' e) .positive
      rw [Int.min_comm, Int.add_comm]
    | _ => rfl

theorem unpacked_mul_comm (f : Format) (x y : UnpackedFloat) :
    UnpackedFloat.mul f x y = UnpackedFloat.mul f y x := by
  cases x with
  | notANumber => cases y <;> rfl
  | infinity s =>
    cases y with
    | infinity t => exact congrArg UnpackedFloat.infinity (sign_mul_comm s t)
    | finite t => exact congrArg UnpackedFloat.infinity (sign_mul_comm s t)
    | _ => rfl
  | zero s =>
    cases y with
    | zero t => exact congrArg UnpackedFloat.zero (sign_mul_comm s t)
    | finite t => exact congrArg UnpackedFloat.zero (sign_mul_comm s t)
    | _ => rfl
  | finite s m e hm =>
    cases y with
    | notANumber => rfl
    | infinity t => exact congrArg UnpackedFloat.infinity (sign_mul_comm s t)
    | zero t => exact congrArg UnpackedFloat.zero (sign_mul_comm s t)
    | finite t n e' hn =>
      show roundWithAccuracy f (s * t) (m * n) (e + e') .exact =
        roundWithAccuracy f (t * s) (n * m) (e' + e) .exact
      rw [sign_mul_comm, Nat.mul_comm, Int.add_comm]

/-- Sums and products of doubles may be swapped. -/
theorem apply_comm {op : Operator} (hop : op.isCommutative) (x y : Float) :
    apply op x y = apply op y x := by
  obtain rfl | rfl := Operator.isCommutative_iff.1 hop
  · exact congrArg (fun u => Float.ofModel (Float.Model.pack u)) (unpacked_add_comm _ _ _)
  · exact congrArg (fun u => Float.ofModel (Float.Model.pack u)) (unpacked_mul_comm _ _ _)

end Double

instance : CommutativeArithmetic Float where
  apply_comm := Double.apply_comm

end Reckon
