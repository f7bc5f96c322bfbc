import Reckon.Proofs.Magnitude
import Reckon.Proofs.Regrouping
import Mathlib.Algebra.Order.BigOperators.GroupWithZero.List

/-!
# Chains within the range of doubles

A chain of finite doubles may overflow in one grouping and not in another, but only if its operands
are large: if what they come to at the most is below the limit, with a factor of `1 + 2⁻⁵³` for
each, then the chain is finite in every grouping and in every order. What the operands come to at
the most is the sum of their magnitudes, or the product, in which a magnitude less than one counts
as one. It is not increased by working out a part of the chain, which is what simplification does
with the constants in it.

## Main definitions

* `Double.weight`, `Double.total` — what the operands of a chain come to at the most.
* `Double.load`, `Double.InRange` — the same with what rounding may add to it.
* `Expr.HasOperands` — what the operands of a chain come to when they are simplified.

## Main statements

* `Double.load_apply_le` — working out a part of a chain does not increase its load.
* `Expr.exists_comesTo_of_load` — a chain within the range is finite in every grouping.
* `Expr.exists_load_of_simplify` — simplification does not increase the load of a chain.
-/

namespace Reckon

/-! ### Operands in range -/

namespace Double

/-- What an operand counts for in a chain. In a product it is one at least. -/
def weight : Operator → Float → ℚ
  | .multiply, x => max 1 (size x)
  | _, x => size x

/-- What the operands of a chain come to at the most. -/
def total : Operator → List Float → ℚ
  | .multiply, xs => (xs.map (weight .multiply)).prod
  | op, xs => (xs.map (weight op)).sum

/-- What a chain comes to at the most when each of its operators rounds up. -/
def load (op : Operator) (xs : List Float) : ℚ := total op xs * (1 + 1 / 2 ^ 53) ^ xs.length

/-- However the chain of certain operands is grouped, its value is below the limit. -/
def InRange (op : Operator) (xs : List Float) : Prop := load op xs < limit

instance (op : Operator) (xs : List Float) : Decidable (InRange op xs) :=
  inferInstanceAs (Decidable (_ < _))

variable {op : Operator} {x y : Float} {xs ys zs : List Float}

theorem size_nonneg (x : Float) : 0 ≤ size x := unpackedSize_nonneg _

theorem one_le_weight_multiply (x : Float) : 1 ≤ weight .multiply x := le_max_left _ _

/-- The order of the operands does not matter. -/
theorem load_eq_of_perm (op : Operator) (h : xs.Perm ys) : load op xs = load op ys := by
  have htotal : total op xs = total op ys := by
    cases op with
    | multiply => exact (h.map _).prod_eq
    | _ => exact (h.map _).sum_eq
  rw [load, load, htotal, h.length_eq]

theorem total_add_nonneg (xs : List Float) : 0 ≤ total .add xs :=
  List.sum_nonneg fun q hq => by
    obtain ⟨x, -, rfl⟩ := List.mem_map.1 hq
    exact size_nonneg x

theorem one_le_total_multiply (xs : List Float) : 1 ≤ total .multiply xs :=
  List.one_le_prod fun q hq => by
    obtain ⟨x, -, rfl⟩ := List.mem_map.1 hq
    exact one_le_weight_multiply x

/-- Working out a sum in a chain of sums leaves it within the range. -/
theorem load_add_le (hx : x.isFinite) (hy : y.isFinite) (h : load .add (x :: y :: zs) < limit) :
    (x + y).isFinite ∧ load .add ((x + y) :: zs) ≤ load .add (x :: y :: zs) := by
  have hcons (x : Float) (xs : List Float) : total .add (x :: xs) = size x + total .add xs := rfl
  have hrest := total_add_nonneg zs
  have hpow (k : ℕ) : (1 : ℚ) ≤ (1 + 1 / 2 ^ 53) ^ k := one_le_pow₀ (by norm_num)
  have hpair : size x + size y ≤ total .add (x :: y :: zs) := by
    rw [hcons, hcons, ← add_assoc]
    exact le_add_of_nonneg_right hrest
  have hsum : size x + size y < limit := by
    refine (hpair.trans ?_).trans_lt h
    exact le_mul_of_one_le_right (total_add_nonneg _) (hpow _)
  obtain ⟨hfinite, hsize⟩ := isFinite_add hx hy hsum
  refine ⟨hfinite, ?_⟩
  rw [load, load, List.length_cons, List.length_cons, List.length_cons, hcons, hcons, hcons,
    pow_succ' _ (zs.length + 1), ← mul_assoc]
  gcongr
  calc size (x + y) + total .add zs
    _ ≤ (size x + size y) * (1 + 1 / 2 ^ 53) + total .add zs * (1 + 1 / 2 ^ 53) :=
      add_le_add hsize (le_mul_of_one_le_right hrest (by norm_num))
    _ = (size x + (size y + total .add zs)) * (1 + 1 / 2 ^ 53) := by ring

/-- Working out a product in a chain of products leaves it within the range. -/
theorem load_multiply_le (hx : x.isFinite) (hy : y.isFinite)
    (h : load .multiply (x :: y :: zs) < limit) :
    (x * y).isFinite ∧ load .multiply ((x * y) :: zs) ≤ load .multiply (x :: y :: zs) := by
  have hcons (x : Float) (xs : List Float) :
      total .multiply (x :: xs) = max 1 (size x) * total .multiply xs := List.prod_cons
  have hrest := one_le_total_multiply zs
  have hpow (k : ℕ) : (1 : ℚ) ≤ (1 + 1 / 2 ^ 53) ^ k := one_le_pow₀ (by norm_num)
  have hmax : max 1 (size x * size y) ≤ max 1 (size x) * max 1 (size y) := by
    refine max_le (one_le_mul_of_one_le_of_one_le (le_max_left _ _) (le_max_left _ _)) ?_
    exact mul_le_mul (le_max_right _ _) (le_max_right _ _) (size_nonneg y) (by positivity)
  have hpair : size x * size y ≤ total .multiply (x :: y :: zs) := by
    rw [hcons, hcons, ← mul_assoc]
    exact ((le_max_right _ _).trans hmax).trans (le_mul_of_one_le_right (by positivity) hrest)
  have hproduct : size x * size y < limit := by
    refine (hpair.trans ?_).trans_lt h
    exact le_mul_of_one_le_right (zero_le_one.trans (one_le_total_multiply _)) (hpow _)
  obtain ⟨hfinite, hsize⟩ := isFinite_mul hx hy hproduct
  refine ⟨hfinite, ?_⟩
  rw [load, load, List.length_cons, List.length_cons, List.length_cons, hcons, hcons, hcons,
    pow_succ' _ (zs.length + 1), ← mul_assoc]
  refine mul_le_mul_of_nonneg_right ?_ (by positivity)
  have hone : (1 : ℚ) ≤ max 1 (size x * size y) * (1 + 1 / 2 ^ 53) :=
    one_le_mul_of_one_le_of_one_le (le_max_left _ _) (by norm_num)
  calc max 1 (size (x * y)) * total .multiply zs
    _ ≤ max 1 (size x * size y) * (1 + 1 / 2 ^ 53) * total .multiply zs := by
      gcongr
      exact max_le hone hsize
    _ ≤ max 1 (size x) * max 1 (size y) * (1 + 1 / 2 ^ 53) * total .multiply zs := by gcongr
    _ = max 1 (size x) * (max 1 (size y) * total .multiply zs) * (1 + 1 / 2 ^ 53) := by ring

/-- Working out a part of a chain leaves it within the range. -/
theorem load_apply_le (hop : op.isCommutative) (hx : x.isFinite) (hy : y.isFinite)
    (h : load op (x :: y :: zs) < limit) :
    (apply op x y).isFinite ∧ load op (apply op x y :: zs) ≤ load op (x :: y :: zs) := by
  obtain rfl | rfl := Operator.isCommutative_iff.1 hop
  · exact load_add_le hx hy h
  · exact load_multiply_le hx hy h

end Double

/-! ### Chains in range -/

namespace Expr

open Double (load load_apply_le load_eq_of_perm limit)

variable {s s' : Store Float} {op : Operator} {l r e e' : Expr Float} {x y : Float}
  {xs ys zs : List Float}

/-- A tree has a certain finite value. -/
def ComesTo (s : Store Float) (e : Expr Float) (x : Float) : Prop :=
  (e.evaluate s).outcome = .ok x ∧ x.isFinite

theorem operands_binary {α : Type} (op : Operator) (l r : Expr α) (b : Bool) :
    (binary op l r b).operands op = l.operands op ++ r.operands op := by
  rw [operands, if_pos rfl]

theorem operands_of_ne_chain {α : Type} {op : Operator} {e : Expr α}
    (h : ∀ l r b, e ≠ binary op l r b) : e.operands op = [e] := by
  cases e with
  | binary op' l r b =>
    rw [operands, if_neg]
    rintro rfl
    exact h l r b rfl
  | _ => rfl

theorem comesTo_constant_iff : (constant x).ComesTo s y ↔ x = y ∧ y.isFinite := by
  rw [ComesTo, outcome_evaluate_constant, Except.ok.injEq]

theorem ComesTo.apply (hop : op.isCommutative) {b : Bool} (hx : l.ComesTo s x)
    (hy : r.ComesTo s y) (h : load op (x :: y :: zs) < limit) :
    (binary op l r b).ComesTo s (Double.apply op x y) ∧
      load op (Double.apply op x y :: zs) ≤ load op (x :: y :: zs) := by
  obtain ⟨hfinite, hload⟩ := load_apply_le hop hx.2 hy.2 h
  exact ⟨⟨outcome_evaluate_binary hx.1 hy.1, hfinite⟩, hload⟩

/-- What the operands of a chain come to is split where the chain is. -/
theorem exists_append_of_operands {R : Expr Float → Float → Prop} {b : Bool}
    (h : List.Forall₂ R ((binary op l r b).operands op) xs) :
    ∃ ys zs, xs = ys ++ zs ∧ List.Forall₂ R (l.operands op) ys ∧
      List.Forall₂ R (r.operands op) zs := by
  rw [operands_binary] at h
  exact ⟨_, _, (List.take_append_drop (l.operands op).length xs).symm,
    (List.forall₂_take_append _ _ _ h.flip).flip, (List.forall₂_drop_append _ _ _ h.flip).flip⟩

theorem exists_of_ne_chain {R : Expr Float → Float → Prop} (he : ∀ l r b, e ≠ binary op l r b)
    (h : List.Forall₂ R (e.operands op) xs) : ∃ x, R e x ∧ xs = [x] := by
  rw [operands_of_ne_chain he, List.forall₂_cons_left_iff] at h
  obtain ⟨x, _, hx, hnil, rfl⟩ := h
  rw [List.forall₂_nil_left_iff.1 hnil]
  exact ⟨x, hx, rfl⟩

theorem exists_comesTo_of_ne_chain (he : ∀ l r b, e ≠ binary op l r b)
    (hxs : List.Forall₂ (ComesTo s) (e.operands op) xs) :
    ∃ x, e.ComesTo s x ∧ load op (x :: zs) ≤ load op (xs ++ zs) := by
  obtain ⟨x, hx, rfl⟩ := exists_of_ne_chain he hxs
  exact ⟨x, hx, le_refl _⟩

/-- A chain is finite in every grouping if its operands are within the range, together with any
others that are not worked out yet. -/
theorem exists_comesTo_of_load (hop : op.isCommutative) : ∀ (e : Expr Float) {xs zs : List Float},
    List.Forall₂ (ComesTo s) (e.operands op) xs → load op (xs ++ zs) < limit →
      ∃ x, e.ComesTo s x ∧ load op (x :: zs) ≤ load op (xs ++ zs)
  | .constant c, xs, zs, hxs, _ => exists_comesTo_of_ne_chain (by simp) hxs
  | .variable v, xs, zs, hxs, _ => exists_comesTo_of_ne_chain (by simp) hxs
  | .call f es, xs, zs, hxs, _ => exists_comesTo_of_ne_chain (by simp) hxs
  | .binary op' l r b, xs, zs, hxs, h => by
    by_cases hne : op = op'
    · subst hne
      obtain ⟨ls, rs, rfl, hls, hrs⟩ := exists_append_of_operands hxs
      rw [List.append_assoc] at h ⊢
      obtain ⟨x, hx, hxload⟩ := exists_comesTo_of_load hop l hls h
      -- The left operand is put behind the right ones, until these have been worked out.
      have hmiddle : load op (x :: (rs ++ zs)) = load op (rs ++ x :: zs) :=
        load_eq_of_perm op List.perm_middle.symm
      rw [hmiddle] at hxload
      obtain ⟨y, hy, hyload⟩ := exists_comesTo_of_load hop r hrs (hxload.trans_lt h)
      have hswap : load op (y :: x :: zs) = load op (x :: y :: zs) :=
        load_eq_of_perm op (.swap x y zs)
      rw [hswap] at hyload
      have hle := hyload.trans hxload
      obtain ⟨hvalue, hload⟩ := hx.apply (b := b) hop hy (hle.trans_lt h)
      exact ⟨_, hvalue, hload.trans hle⟩
    · exact exists_comesTo_of_ne_chain (fun _ _ _ he => hne (binary.inj he).1.symm) hxs

theorem eq_of_operands_constant (h : List.Forall₂ (ComesTo s) ((constant x).operands op) xs) :
    xs = [x] ∧ x.isFinite := by
  obtain ⟨y, hy, rfl⟩ := exists_of_ne_chain (by simp) h
  obtain ⟨rfl, hfinite⟩ := comesTo_constant_iff.1 hy
  exact ⟨rfl, hfinite⟩

/-- The first operand of a chain with a constant at its front is that constant. -/
theorem exists_cons_of_operands {b : Bool}
    (h : List.Forall₂ (ComesTo s) ((binary op (constant x) r b).operands op) xs) :
    ∃ ys, xs = x :: ys ∧ x.isFinite ∧ List.Forall₂ (ComesTo s) (r.operands op) ys := by
  obtain ⟨_, ys, rfl, hx, hys⟩ := exists_append_of_operands h
  obtain ⟨rfl, hfinite⟩ := eq_of_operands_constant hx
  exact ⟨ys, rfl, hfinite, hys⟩

theorem operands_front {α : Type} (op : Operator) (x : α) (r : Expr α) (b : Bool) :
    (binary op (constant x) r b).operands op = constant x :: r.operands op :=
  operands_binary op _ r b

/-- Gathering the operands of a chain puts them into another order, or works two of them out, so
that they stay within the range. -/
theorem exists_load_gather (hop : op.isCommutative) (b : Bool)
    (hxs : List.Forall₂ (ComesTo s) (l.operands op) xs)
    (hys : List.Forall₂ (ComesTo s) (r.operands op) ys) (h : load op (xs ++ ys ++ zs) < limit) :
    ∃ vs, List.Forall₂ (ComesTo s) ((gather op l r b).operands op) vs ∧
      load op (vs ++ zs) ≤ load op (xs ++ ys ++ zs) := by
  have hconstant {x : Float} (hx : x.isFinite) : (constant x).ComesTo s x :=
    comesTo_constant_iff.2 ⟨rfl, hx⟩
  have hg := gathering_gather op l r b
  generalize gather op l r b = e at hg ⊢
  cases hg with
  | @fold x y =>
    obtain ⟨rfl, hx⟩ := eq_of_operands_constant hxs
    obtain ⟨rfl, hy⟩ := eq_of_operands_constant hys
    obtain ⟨hfinite, hload⟩ := load_apply_le hop hx hy h
    exact ⟨[Double.apply op x y], .cons (hconstant hfinite) .nil, hload⟩
  | @merge x y =>
    obtain ⟨rfl, hx⟩ := eq_of_operands_constant hxs
    obtain ⟨rs, rfl, hy, hrs⟩ := exists_cons_of_operands hys
    obtain ⟨hfinite, hload⟩ := load_apply_le hop hx hy h
    refine ⟨Double.apply op x y :: rs, ?_, hload⟩
    rw [operands_front]
    exact .cons (hconstant hfinite) hrs
  | @mergeSwapped x y =>
    obtain ⟨rs, rfl, hy, hrs⟩ := exists_cons_of_operands hxs
    obtain ⟨rfl, hx⟩ := eq_of_operands_constant hys
    have hperm : (y :: rs ++ [x] ++ zs).Perm (x :: y :: (rs ++ zs)) := by
      rw [List.append_assoc]
      exact List.perm_middle
    rw [load_eq_of_perm op hperm] at h ⊢
    obtain ⟨hfinite, hload⟩ := load_apply_le hop hx hy h
    refine ⟨Double.apply op x y :: rs, ?_, hload⟩
    rw [operands_front]
    exact .cons (hconstant hfinite) hrs
  | @rotate _ y =>
    obtain ⟨rs, rfl, hy, hrs⟩ := exists_cons_of_operands hys
    refine ⟨y :: (xs ++ rs), ?_, (load_eq_of_perm op ?_).le⟩
    · rw [operands_front, operands_binary]
      exact .cons (hconstant hy) (List.rel_append hxs hrs)
    · exact (List.perm_middle.symm).append_right zs
  | @swap _ y =>
    obtain ⟨rfl, hy⟩ := eq_of_operands_constant hys
    refine ⟨y :: xs, ?_, (load_eq_of_perm op ?_).le⟩
    · rw [operands_front]
      exact .cons (hconstant hy) hxs
    · exact (List.perm_append_singleton y xs).symm.append_right zs
  | keep =>
    refine ⟨xs ++ ys, ?_, le_refl _⟩
    rw [operands_binary]
    exact List.rel_append hxs hys

/-- The operands of a chain come to certain finite numbers when each of them is simplified. -/
def HasOperands (s s' : Store Float) (op : Operator) (e : Expr Float) (xs : List Float) : Prop :=
  List.Forall₂ (fun d x => ∃ d', (d.simplify s).outcome = .ok d' ∧ d'.ComesTo s' x)
    (e.operands op) xs

theorem exists_load_of_ne_chain (he : ∀ l r b, e ≠ binary op l r b)
    (h : (e.simplify s).outcome = .ok e') (hxs : e.HasOperands s s' op xs) :
    ∃ vs, List.Forall₂ (ComesTo s') (e'.operands op) vs ∧
      load op (vs ++ zs) ≤ load op (xs ++ zs) := by
  obtain ⟨x, ⟨e'', h', hx⟩, rfl⟩ := exists_of_ne_chain he hxs
  obtain rfl := Except.ok.inj (h.symm.trans h')
  refine ⟨[x], ?_, le_refl _⟩
  rw [operands_of_ne_chain (ne_chain_of_simplify h he)]
  exact .cons hx .nil

/-- Simplification leaves a chain within the range, together with any other operands. -/
theorem exists_load_of_simplify (hop : op.isCommutative) :
    ∀ (e : Expr Float) {e' : Expr Float} {xs zs : List Float},
      (e.simplify s).outcome = .ok e' → e.HasOperands s s' op xs → load op (xs ++ zs) < limit →
        ∃ vs, List.Forall₂ (ComesTo s') (e'.operands op) vs ∧
          load op (vs ++ zs) ≤ load op (xs ++ zs)
  | .constant c, e', xs, zs, h, hxs, _ => exists_load_of_ne_chain (by simp) h hxs
  | .variable v, e', xs, zs, h, hxs, _ => exists_load_of_ne_chain (by simp) h hxs
  | .call f es, e', xs, zs, h, hxs, _ => exists_load_of_ne_chain (by simp) h hxs
  | .binary op' l r b, e', xs, zs, h, hxs, hload => by
    by_cases hne : op = op'
    · subst hne
      obtain ⟨l', r', hl, hr, rfl⟩ := exists_of_simplify_binary h
      obtain ⟨ls, rs, rfl, hls, hrs⟩ := exists_append_of_operands hxs
      rw [List.append_assoc] at hload ⊢
      obtain ⟨us, hus, husload⟩ := exists_load_of_simplify hop l hl hls hload
      -- The left operands are put behind the right ones, until these have been simplified.
      have hmiddle (ys : List Float) : load op (us ++ (ys ++ zs)) = load op (ys ++ (us ++ zs)) := by
        rw [← List.append_assoc, ← List.append_assoc]
        exact load_eq_of_perm op (List.perm_append_comm.append_right zs)
      rw [hmiddle] at husload
      obtain ⟨vs, hvs, hvsload⟩ := exists_load_of_simplify hop r hr hrs (husload.trans_lt hload)
      rw [← hmiddle, ← List.append_assoc] at hvsload
      have hle := hvsload.trans husload
      obtain ⟨ws, hws, hwsload⟩ := exists_load_gather hop b hus hvs (hle.trans_lt hload)
      exact ⟨ws, hws, hwsload.trans hle⟩
    · exact exists_load_of_ne_chain (fun _ _ _ he => hne (binary.inj he).1.symm) h hxs

/-- A chain that is within the range is finite when it has been simplified. -/
theorem isFinite_of_inRange (hop : op.isCommutative) (h : (e.simplify s).outcome = .ok e')
    (hxs : e.HasOperands s s' op xs) (hrange : Double.InRange op xs) : ∃ x, e'.ComesTo s' x := by
  rw [Double.InRange, ← List.append_nil xs] at hrange
  obtain ⟨vs, hvs, hload⟩ := exists_load_of_simplify hop e h hxs hrange
  obtain ⟨x, hx, -⟩ := exists_comesTo_of_load hop e' hvs (hload.trans_lt hrange)
  exact ⟨x, hx⟩

end Expr

end Reckon
