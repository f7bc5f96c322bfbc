import Reckon.Proofs.Range

/-!
# Overflow in regrouped chains

Simplification brings the constants of a chain together, and so it groups the operands of the chain
anew. With doubles this may give an infinity where there was none: two large constants overflow that
were added to a large negative number, one after another. It may also give another number, since the
groupings are rounded differently, and an operator or a function may not be finite at that number,
as a quotient is not if the number is zero. Nothing else makes a simplified tree infinite: neither
folding nor swapping nor working out calls does. A chain whose operands are within the range of
doubles does not overflow in any grouping.

## Main definitions

* `Expr.Overflows` — a node of a tree that simplification makes infinite or undefined.

## Main statements

* `Expr.Overflows.not_isFinite` — such a node is not finite when it has been simplified.
* `Expr.isFinite_of_not_overflows` — without such nodes, a simplified tree is finite.
* `Expr.isFinite_of_simplify` — when simplified trees are finite.
* `Expr.simplify_overflows` — regrouping may overflow, in the regrouped chain or elsewhere.
-/

namespace Reckon

/-! ### Finite results -/

/-- There is a result, and it is neither infinite nor undefined. -/
def Run.isFinite (r : Run Float) : Bool :=
  match r.outcome with
  | .ok x => x.isFinite
  | .error _ => false

theorem Run.isFinite_iff {r : Run Float} : r.isFinite ↔ ∃ x, r.outcome = .ok x ∧ x.isFinite := by
  unfold isFinite
  cases r.outcome with
  | error e => simp
  | ok x => simp

theorem Run.succeeds_of_isFinite {r : Run Float} (h : r.isFinite) : r.Succeeds := by
  obtain ⟨x, hx, -⟩ := Run.isFinite_iff.1 h
  exact ⟨x, hx⟩

theorem Run.Agree.isFinite_eq {r r' : Run Float} (h : r.Agree r') : r.isFinite = r'.isFinite := by
  unfold Run.isFinite
  rw [h]

namespace Expr

open Arithmetic

variable {s s' : Store Float} {op : Operator} {l r e e' t t' : Expr Float} {xs : List Float}

/-- Simplification makes something infinite or undefined of a node whose operands or arguments stay
finite: in a new grouping of a chain, or because regrouping has changed what is put in. -/
inductive Overflows (s s' : Store Float) : Expr Float → Prop
  /-- The operands are regrouped, and what they come to in the new grouping is not finite. -/
  | regrouped {op l r b l' r' p q} (hl : (l.simplify s).outcome = .ok l')
    (hr : (r.simplify s).outcome = .ok r') (hlfinite : (l'.evaluate s').isFinite)
    (hrfinite : (r'.evaluate s').isFinite) (h : Regrouping s' op l' r' p q) (hq : ¬q.isFinite) :
    Overflows s s' (binary op l r b)
  /-- The operator is not finite for its operands once they are simplified. At least one of them has
  another value than before. -/
  | operands {op l r b l' r'} (hl : (l.simplify s).outcome = .ok l')
    (hr : (r.simplify s).outcome = .ok r') (hlfinite : (l'.evaluate s').isFinite)
    (hrfinite : (r'.evaluate s').isFinite) (hkeep : ∀ p q, ¬Regrouping s' op l' r' p q)
    (hchanged : ¬((l'.evaluate s').Agree (l.evaluate s') ∧ (r'.evaluate s').Agree (r.evaluate s')))
    (h : ¬((binary op l' r' b).evaluate s').isFinite) : Overflows s s' (binary op l r b)
  /-- The call is not finite for its arguments once they are simplified. At least one of those that
  the function asks for has another value than before. -/
  | arguments {f es es'} (hes : (simplifyAll s es).outcome = .ok es')
    (hfinite : ∀ i ∈ f.asked s'.time (evaluateAll s' es), ∀ a ∈ es'[i]?, (a.evaluate s').isFinite)
    (hchanged : ∃ i ∈ f.asked s'.time (evaluateAll s' es), ∃ a a', es[i]? = some a ∧
      es'[i]? = some a' ∧ ¬(a'.evaluate s').Agree (a.evaluate s'))
    (h : ¬(f.call s'.time (evaluateAll s' es')).isFinite) : Overflows s s' (call f es)

theorem not_overflows_constant {c : Float} : ¬(constant c).Overflows s s' := by
  rintro ⟨⟩

theorem not_overflows_variable {v : Variable} : ¬(«variable» v).Overflows s s' := by
  rintro ⟨⟩

/-- A node that overflows is not finite when it has been simplified. -/
theorem Overflows.not_isFinite (h : t.Overflows s s') (hc : t.Calls Function.IsFoldable)
    (ht : (t.simplify s).outcome = .ok t') : ¬(t'.evaluate s').isFinite := by
  cases h with
  | @regrouped op l r b l' r' p q hl hr _ _ h hq =>
    obtain rfl := Except.ok.inj ((outcome_simplify_binary hl hr).symm.trans ht)
    rw [Run.isFinite, outcome_evaluate_gather_of_regrouping b h]
    exact hq
  | @operands op l r b l' r' hl hr hlfinite hrfinite hkeep _ h =>
    obtain rfl := Except.ok.inj ((outcome_simplify_binary hl hr).symm.trans ht)
    obtain ⟨x, hx, -⟩ := Run.isFinite_iff.1 hlfinite
    obtain ⟨y, hy, -⟩ := Run.isFinite_iff.1 hrfinite
    obtain ⟨q, hregrouping, -⟩ | ⟨-, hvalue⟩ := outcome_evaluate_gather_cases op b hx hy
    · exact absurd hregrouping (hkeep _ q)
    · have hagree : ((gather op l' r' b).evaluate s').Agree ((binary op l' r' b).evaluate s') :=
        hvalue.trans (outcome_evaluate_binary hx hy).symm
      rwa [hagree.isFinite_eq]
  | @arguments f es es' hes _ _ h =>
    rw [Calls] at hc
    rw [simplify, Run.outcome_bind_of_ok hes] at ht
    rwa [(agree_call_of_simplify hc.1 ht).isFinite_eq]

/-- Whatever is evaluated of a tree that can be simplified can be simplified, too, and calls
functions of the same kind. -/
theorem passesDown_simplify (s s' : Store Float) (P : Function Float → Prop) :
    PassesDown s' fun t => t.Calls P ∧ (t.simplify s).Succeeds where
  left := by
    rintro op l r b ⟨hc, e', h⟩
    rw [Calls] at hc
    obtain ⟨l', r', hl, -, -⟩ := exists_of_simplify_binary h
    exact ⟨hc.1, l', hl⟩
  right := by
    rintro op l r b ⟨hc, e', h⟩ -
    rw [Calls] at hc
    obtain ⟨l', r', -, hr, -⟩ := exists_of_simplify_binary h
    exact ⟨hc.2, r', hr⟩
  argument := by
    rintro f es i a ⟨hc, e', h⟩ - ha
    rw [Calls] at hc
    rw [simplify] at h
    obtain ⟨es', hes, -⟩ := Run.outcome_bind_eq_ok.1 h
    have hall := forall₂_of_simplifyAll hes
    obtain ⟨hi, rfl⟩ := List.getElem?_eq_some_iff.1 ha
    exact ⟨calls_of_allCall hc.2 ha, _, hall.get hi (hall.length_eq ▸ hi)⟩

/-- Whatever is evaluated of what is evaluated of a tree is evaluated of the tree. -/
theorem passesDown_visited (s : Store Float) (e : Expr Float) :
    PassesDown s fun t => ∀ d ∈ t.visited s, d ∈ e.visited s where
  left := by
    intro op l r b h d hd
    refine h d ?_
    rw [visited]
    exact List.mem_cons_of_mem _ (List.mem_append_left _ hd)
  right := by
    rintro op l r b h ⟨x, hx⟩ d hd
    refine h d ?_
    rw [visited, Run.error?, hx]
    exact List.mem_cons_of_mem _ (List.mem_append_right _ hd)
  argument := by
    intro f es i a h hasked ha d hd
    obtain ⟨hi, rfl⟩ := List.getElem?_eq_some_iff.1 ha
    exact h d (mem_visited_call hi hasked hd)

/-- A node whose operands stay finite is finite when it is simplified, or it overflows. -/
theorem isFinite_gather_of_not_overflows {l' r' : Expr Float} {b : Bool}
    (hl : (l.simplify s).outcome = .ok l') (hr : (r.simplify s).outcome = .ok r')
    (hlfinite : (l'.evaluate s').isFinite) (hrfinite : (r'.evaluate s').isFinite)
    (hfinite : ((binary op l r b).evaluate s').isFinite)
    (h : ¬(binary op l r b).Overflows s s') : ((gather op l' r' b).evaluate s').isFinite := by
  obtain ⟨x, hx, -⟩ := Run.isFinite_iff.1 hlfinite
  obtain ⟨y, hy, -⟩ := Run.isFinite_iff.1 hrfinite
  obtain ⟨q, hregrouping, hvalue⟩ | ⟨hkeep, hvalue⟩ := outcome_evaluate_gather_cases op b hx hy
  · by_contra hinfinite
    refine h (.regrouped hl hr hlfinite hrfinite hregrouping fun hq => hinfinite ?_)
    exact Run.isFinite_iff.2 ⟨q, hvalue, hq⟩
  · have hagree : ((gather op l' r' b).evaluate s').Agree ((binary op l' r' b).evaluate s') :=
      hvalue.trans (outcome_evaluate_binary hx hy).symm
    rw [hagree.isFinite_eq]
    by_contra hinfinite
    refine h (.operands hl hr hlfinite hrfinite hkeep (fun ⟨hlagree, hragree⟩ => ?_) hinfinite)
    -- If neither operand has changed, then the node has the value that it had before.
    have hsame : ((binary op l' r' b).evaluate s').Agree ((binary op l r b).evaluate s') := by
      rw [evaluate_binary, evaluate_binary]
      exact hlagree.bind fun _ => hragree.bind fun _ => .refl _
    rw [hsame.isFinite_eq] at hinfinite
    exact hinfinite hfinite

/-- A call whose arguments stay finite is finite when it is simplified, or it overflows. -/
theorem isFinite_call_of_not_overflows {f : Function Float} {es es' : List (Expr Float)}
    (hes : (simplifyAll s es).outcome = .ok es')
    (hargs : ∀ i ∈ f.asked s'.time (evaluateAll s' es), ∀ a ∈ es'[i]?, (a.evaluate s').isFinite)
    (hfinite : ((call f es).evaluate s').isFinite) (h : ¬(call f es).Overflows s s') :
    (f.call s'.time (evaluateAll s' es')).isFinite := by
  by_contra hinfinite
  refine h (.arguments hes hargs ?_ hinfinite)
  by_contra hsame
  -- If nothing has changed that the function asks for, then the call has the value that it had.
  have hagree : (f.call s'.time (evaluateAll s' es)).Agree
      (f.call s'.time (evaluateAll s' es')) := by
    simp only [evaluateAll_eq_map] at hsame ⊢
    refine Function.agree_call_of_asked ?_ fun i hasked hi hi' => ?_
    · rw [List.length_map, List.length_map, (forall₂_of_simplifyAll hes).length_eq]
    · rw [List.getElem_map, List.getElem_map]
      rw [List.length_map] at hi hi'
      by_contra hdiffer
      exact hsame ⟨i, hasked, _, _, List.getElem?_eq_getElem hi, List.getElem?_eq_getElem hi',
        fun h => hdiffer h.symm⟩
  rw [evaluate, hagree.isFinite_eq] at hfinite
  exact hinfinite hfinite

mutual

/-- If everything that is evaluated of a tree is finite and does not overflow, then the tree is
finite when it has been simplified. -/
theorem isFinite_of_not_overflows (hs : s.Assigns s') :
    ∀ (e : Expr Float) {e' : Expr Float}, e.Calls Function.IsFoldable →
      (e.simplify s).outcome = .ok e' →
        (∀ t ∈ e.visited s', (t.evaluate s').isFinite ∧ ¬t.Overflows s s') →
          (e'.evaluate s').isFinite
  | .constant x, e', _, h, hvisited => by
    rw [simplify] at h
    obtain rfl := Except.ok.inj h
    exact (hvisited _ (mem_visited_self _)).1
  | .variable v, e', _, h, hvisited => by
    have hfinite := (hvisited _ (mem_visited_self _)).1
    rw [simplify] at h
    obtain rfl := Except.ok.inj h
    split
    · next hv =>
      rw [evaluate, hs v hv] at hfinite
      exact hfinite
    · exact hfinite
  | .binary op l r b, e', hc, h, hvisited => by
    obtain ⟨hfinite, hoverflows⟩ := hvisited _ (mem_visited_self _)
    rw [Calls] at hc
    obtain ⟨l', r', hl, hr, rfl⟩ := exists_of_simplify_binary h
    have hsucceeds : ((binary op l r b).evaluate s').Succeeds := Run.succeeds_of_isFinite hfinite
    rw [visited_binary hsucceeds, List.forall_mem_cons, List.forall_mem_append] at hvisited
    have ihl := isFinite_of_not_overflows hs l hc.1 hl hvisited.2.1
    have ihr := isFinite_of_not_overflows hs r hc.2 hr hvisited.2.2
    exact isFinite_gather_of_not_overflows hl hr ihl ihr hfinite hoverflows
  | .call f es, e', hc, h, hvisited => by
    obtain ⟨hfinite, hoverflows⟩ := hvisited _ (mem_visited_self _)
    rw [Calls] at hc
    rw [simplify] at h
    obtain ⟨es', hes, h⟩ := Run.outcome_bind_eq_ok.1 h
    rw [(agree_call_of_simplify hc.1 h).isFinite_eq]
    have ih := isFinite_of_not_overflowsAll hs es hc.2 hes
    refine isFinite_call_of_not_overflows hes (fun i hasked a' ha' => ?_) hfinite hoverflows
    obtain ⟨hi', rfl⟩ := List.getElem?_eq_some_iff.1 ha'
    have hi : i < es.length := ih.length_eq ▸ hi'
    exact ih.get hi hi' fun t ht => hvisited t (mem_visited_call hi hasked ht)

/-- The same for several trees, each on its own. -/
theorem isFinite_of_not_overflowsAll (hs : s.Assigns s') :
    ∀ (es : List (Expr Float)) {es' : List (Expr Float)}, AllCall Function.IsFoldable es →
      (simplifyAll s es).outcome = .ok es' →
        List.Forall₂ (fun e e' =>
          (∀ t ∈ e.visited s', (t.evaluate s').isFinite ∧ ¬t.Overflows s s') →
            (e'.evaluate s').isFinite) es es'
  | [], es', _, h => by
    rw [simplifyAll] at h
    obtain rfl := Except.ok.inj h
    exact .nil
  | e :: es, es', hc, h => by
    rw [AllCall] at hc
    rw [simplifyAll] at h
    obtain ⟨e', he, h⟩ := Run.outcome_bind_eq_ok.1 h
    obtain ⟨es'', hes, h⟩ := Run.outcome_bind_eq_ok.1 h
    obtain rfl := Except.ok.inj h
    exact .cons (isFinite_of_not_overflows hs e hc.1 he)
      (isFinite_of_not_overflowsAll hs es hc.2 hes)

end

end Expr

end Reckon
