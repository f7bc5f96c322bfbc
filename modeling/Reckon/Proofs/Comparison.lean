import Reckon.Calculator
import Reckon.Proofs.Rounding

/-!
# Comparing doubles

Two of the six comparisons ask for the order of their operands. The others ask how far the operands
are apart: they are equal if the difference is less than the least positive double, and different if
it is more. The difference of two finite doubles is rounded, but only if it is large, so that a
difference of zero or one unit shows as such. Equality of numbers is therefore equality of doubles,
with the exception of an infinity, which has no difference from itself. A difference of exactly one
unit is neither less than the least double nor more.

## Main definitions

* `Double.Represents` — what rounding keeps of an exact value.
* `Double.SameInfinity`, `Double.Adjacent` — the pairs of numbers that comparisons disagree about.
* `Double.AreOpposite` — one comparison is the negation of another.

## Main statements

* `Double.represents_sub` — what the difference of two doubles keeps of the exact difference.
* `Double.exists_comparisons` — what the six comparisons come to.
* `Double.comparisons_agree_iff` — when they agree with each other.
-/

namespace Reckon

namespace Double

open Float.Model (UnpackedFloat)
open Float.Model.UnpackedFloat (Sign decreaseExponent)

variable {m n : ℕ} {e e' : ℤ} {s s' : Sign} {x y : Float}

/-! ### Differences -/

/-- What rounding keeps of an exact value, in units of the least double: the value itself, or that
it has more than 53 digits. -/
def Represents : UnpackedFloat → ℤ → Prop
  | .infinity _, z => 2 ^ 53 ≤ |z|
  | .notANumber, _ => False
  | .zero _, z => z = 0
  | .finite s m e _, z => s.apply (scaled m e) = z ∨ 2 ^ 53 ≤ |z| ∧ 2 ^ 53 ≤ scaled m e

theorem represents_infinity_iff {z : ℤ} : Represents (.infinity s) z ↔ 2 ^ 53 ≤ |z| := Iff.rfl

theorem represents_zero_iff {z : ℤ} : Represents (.zero s) z ↔ z = 0 := Iff.rfl

theorem represents_finite_iff (hm : 0 < m) {z : ℤ} : Represents (.finite s m e hm) z ↔
    s.apply (scaled m e) = z ∨ 2 ^ 53 ≤ |z| ∧ 2 ^ 53 ≤ scaled m e :=
  Iff.rfl

theorem represents_round (s : Sign) (hm : 0 < m) (he : -1074 ≤ e) :
    Represents (Float.Model.pack (.round .binary64 s m e)).unpack (s.apply (scaled m e)) := by
  obtain ⟨n, e', hn, hround, hfit, hscaled⟩ := exists_finite_of_round s hm he
  rw [hround, unpack_pack_finite s hn hfit]
  by_cases hlarge : e' ≤ 971
  · rw [if_pos hlarge, represents_finite_iff, abs_apply, Nat.abs_cast]
    exact hscaled.imp (fun h => by rw [h]) (And.imp_left fun h => by exact_mod_cast h)
  · rw [if_neg hlarge, represents_infinity_iff, abs_apply, Nat.abs_cast]
    have hlarge : 2 ^ 53 ≤ scaled m e := by
      obtain h | ⟨h, -⟩ := hscaled
      · have hlog := log2_scaled (e := e') hn (by omega)
        rw [← h, ← Nat.le_log2 (scaled_pos hn).ne']
        omega
      · exact h
    exact_mod_cast hlarge

/-- The same for a magnitude with a sign, or none. -/
theorem represents_normalize (z : ℤ) (he : -1074 ≤ e) :
    Represents (Float.Model.pack (.normalize .binary64 z e .positive)).unpack
      (z * 2 ^ (e + 1074).toNat) := by
  unfold UnpackedFloat.normalize
  split
  · next h =>
    rw [Int.compare_eq_lt] at h
    have hround := represents_round .negative (m := (-z).toNat) (by omega) he
    rwa [Sign.apply, scaled, Nat.cast_mul, Int.toNat_of_nonneg (by omega), neg_mul, neg_neg,
      Nat.cast_pow] at hround
  · next h =>
    rw [Int.compare_eq_eq] at h
    rw [h, zero_mul]
    exact rfl
  · next h =>
    rw [Int.compare_eq_gt] at h
    have hround := represents_round .positive (m := z.toNat) (by omega) he
    rwa [Sign.apply, scaled, Nat.cast_mul, Int.toNat_of_nonneg (by omega), Nat.cast_pow] at hround

theorem apply_mul (s : Sign) (y z : ℤ) : s.apply y * z = s.apply (y * z) := by
  cases s
  · exact neg_mul y z
  · rfl

/-- Bringing a number to a smaller exponent keeps its value. -/
theorem apply_decreaseExponent (s : Sign) (he' : -1074 ≤ e') (hle : e' ≤ e) :
    s.apply (decreaseExponent m e e').1 * 2 ^ (e' + 1074).toNat = s.apply (scaled m e) := by
  obtain ⟨k, rfl⟩ : ∃ k : ℕ, e' = e - k := ⟨(e - e').toNat, by omega⟩
  have hk : (e - (e - k)).toNat = k := by omega
  have hscaled : scaled (m <<< k) (e - k) = scaled m e := scaled_shiftLeft he'
  rw [apply_mul, decreaseExponent, hk, ← hscaled, scaled]
  norm_cast

theorem apply_neg (s : Sign) (z : ℤ) : (-s).apply z = -s.apply z := by
  cases s
  · exact (neg_neg z).symm
  · rfl

/-- The difference of two finite doubles is exact, or has more than 53 digits in units. -/
theorem represents_sub {u v : UnpackedFloat} (hu : IsUnpacked u) (hv : IsUnpacked v)
    (hfu : u.isFinite) (hfv : v.isFinite) :
    Represents (Float.Model.pack (.sub .binary64 u v)).unpack
      (unpackedUnits u - unpackedUnits v) := by
  cases u with
  | infinity => cases hfu
  | notANumber => cases hfu
  | zero s =>
    cases v with
    | infinity => cases hfv
    | notANumber => cases hfv
    | zero s' => cases s <;> cases s' <;> rfl
    | finite s' n e' hn =>
      have hsub : UnpackedFloat.sub .binary64 (.zero s) (.finite s' n e' hn) =
          .finite (-s') n e' hn :=
        rfl
      rw [hsub, unpack_pack (u := .finite (-s') n e' hn) hv, represents_finite_iff, apply_neg]
      exact .inl (zero_sub _).symm
  | finite s m e hm =>
    cases v with
    | infinity => cases hfv
    | notANumber => cases hfv
    | zero s' =>
      have hsub : UnpackedFloat.sub .binary64 (.finite s m e hm) (.zero s') = .finite s m e hm :=
        rfl
      rw [hsub, unpack_pack hu, represents_finite_iff]
      exact .inl (sub_zero _).symm
    | finite s' n e' hn =>
      have he := hu.1
      have he' := hv.1
      rw [fitting_eq] at he he'
      -- Both are brought to the smaller exponent and subtracted as integers.
      have hmin : -1074 ≤ min e e' := by omega
      rw [unpackedUnits_finite, unpackedUnits_finite,
        ← apply_decreaseExponent s hmin (min_le_left e e'),
        ← apply_decreaseExponent s' hmin (min_le_right e e'), ← sub_mul]
      exact represents_normalize _ hmin

/-! ### Distance from zero -/

theorem unpack_sub (x y : Float) : (x - y).toModel.unpack =
    (Float.Model.pack (.sub .binary64 x.toModel.unpack y.toModel.unpack)).unpack :=
  rfl

theorem unpack_abs (x : Float) : x.abs.toModel.unpack = x.toModel.unpack.abs := by
  have h := isUnpacked_unpack x.toModel
  refine unpack_pack (u := x.toModel.unpack.abs) ?_
  cases hx : x.toModel.unpack with
  | finite s m e hm => rwa [hx] at h
  | _ => trivial

theorem abs_finite (hm : 0 < m) :
    (UnpackedFloat.finite s m e hm).abs = .finite .positive m e hm :=
  rfl

theorem unpack_least : least.toModel.unpack = .finite .positive 1 (-1074) one_pos :=
  rfl

theorem lt_iff_lt_unpack (x y : Float) : x < y ↔ x.toModel.unpack.lt y.toModel.unpack := by
  show decide (x.toModel < y.toModel) = true ↔ _
  rw [decide_eq_true_iff]
  rfl

theorem lt_finite_positive_iff (hm : 0 < m) (hn : 0 < n) :
    (UnpackedFloat.finite .positive m e hm).lt (.finite .positive n e' hn) ↔
      e < e' ∨ e = e' ∧ m < n := by
  show (some ((compare e e').then (compare m n)) == some .lt) = true ↔ _
  rw [beq_iff_eq, Option.some_inj, Ordering.then_eq_lt, Int.compare_eq_lt, Int.compare_eq_eq,
    Nat.compare_eq_lt]

theorem one_lt_scaled_iff (hm : 0 < m) (he : -1074 ≤ e) :
    1 < scaled m e ↔ -1074 < e ∨ -1074 = e ∧ 1 < m := by
  obtain rfl | hlt := he.eq_or_lt
  · simp [scaled]
  · refine iff_of_true ?_ (.inl hlt)
    have hpow : 1 < 2 ^ (e + 1074).toNat := Nat.one_lt_two_pow (by omega)
    exact Nat.lt_of_lt_of_le hpow (Nat.le_mul_of_pos_left _ hm)

theorem abs_lt_least_iff {x : Float} {z : ℤ} (h : Represents x.toModel.unpack z) :
    x.abs < least ↔ z = 0 := by
  have hx := isUnpacked_unpack x.toModel
  rw [lt_iff_lt_unpack, unpack_abs, unpack_least]
  generalize x.toModel.unpack = u at h hx
  cases u with
  | infinity s =>
    refine iff_of_false Bool.false_ne_true fun hz => ?_
    rw [represents_infinity_iff, hz] at h
    norm_num at h
  | notANumber => exact h.elim
  | zero s => exact iff_of_true rfl h
  | finite s m e hm =>
    have he := fitting_eq m e
    rw [hx.1] at he
    rw [abs_finite, lt_finite_positive_iff]
    refine iff_of_false (by omega) fun hz => ?_
    have hpos : 0 < scaled m e := scaled_pos hm
    obtain h | ⟨h, -⟩ := h
    · rw [hz, apply_eq_zero_iff] at h
      omega
    · rw [hz] at h
      norm_num at h

theorem least_lt_abs_iff {x : Float} {z : ℤ} (h : Represents x.toModel.unpack z) :
    least < x.abs ↔ 1 < |z| := by
  have hx := isUnpacked_unpack x.toModel
  rw [lt_iff_lt_unpack, unpack_abs, unpack_least]
  generalize x.toModel.unpack = u at h hx
  cases u with
  | infinity s =>
    refine iff_of_true rfl ?_
    rw [represents_infinity_iff] at h
    omega
  | notANumber => exact h.elim
  | zero s =>
    refine iff_of_false Bool.false_ne_true ?_
    rw [represents_zero_iff] at h
    simp [h]
  | finite s m e hm =>
    have he := fitting_eq m e
    rw [hx.1] at he
    rw [abs_finite, lt_finite_positive_iff, ← one_lt_scaled_iff hm (by omega)]
    obtain rfl | ⟨hz, hscaled⟩ := h
    · rw [abs_apply, Nat.abs_cast, Nat.one_lt_cast]
    · exact iff_of_true (by omega) (by omega)

/-! ### Order -/

theorem swap_then_compare (e e' : ℤ) (m n : ℕ) :
    ((compare e e').then (compare m n)).swap = (compare e' e).then (compare n m) := by
  rw [Ordering.swap_then, ← Std.OrientedCmp.eq_swap, ← Std.OrientedCmp.eq_swap]

theorem exists_compare {u v : UnpackedFloat} (hu : u.isNaN = false) (hv : v.isNaN = false) :
    ∃ o, u.compare v = some o ∧ v.compare u = some o.swap := by
  cases u with
  | notANumber => cases hu
  | infinity s =>
    cases v with
    | notANumber => cases hv
    | infinity s' => cases s <;> cases s' <;> exact ⟨_, rfl, rfl⟩
    | zero | finite => cases s <;> exact ⟨_, rfl, rfl⟩
  | zero s =>
    cases v with
    | notANumber => cases hv
    | zero => exact ⟨_, rfl, rfl⟩
    | infinity s' => cases s' <;> exact ⟨_, rfl, rfl⟩
    | finite s' => cases s' <;> exact ⟨_, rfl, rfl⟩
  | finite s m e hm =>
    cases v with
    | notANumber => cases hv
    | infinity s' => cases s <;> cases s' <;> exact ⟨_, rfl, rfl⟩
    | zero s' => cases s <;> exact ⟨_, rfl, rfl⟩
    | finite s' n e' hn =>
      cases s <;> cases s'
      · exact ⟨_, rfl, congrArg _ (congrArg _ (swap_then_compare e e' m n).symm)⟩
      · exact ⟨_, rfl, rfl⟩
      · exact ⟨_, rfl, rfl⟩
      · exact ⟨_, rfl, congrArg _ (swap_then_compare e e' m n).symm⟩

/-- Of two numbers that are not undefined, one is less, or they are equal. -/
theorem exists_ordering (hx : x.isNaN = false) (hy : y.isNaN = false) :
    ∃ o : Ordering, (x < y ↔ o = .lt) ∧ (x == y ↔ o = .eq) ∧ (y < x ↔ o = .gt) := by
  obtain ⟨o, h, h'⟩ := exists_compare (u := x.toModel.unpack) (v := y.toModel.unpack) hx hy
  refine ⟨o, ?_, ?_, ?_⟩
  · rw [lt_iff_lt_unpack, UnpackedFloat.lt, h, beq_iff_eq, Option.some_inj]
  · show (x.toModel.unpack.compare y.toModel.unpack == some .eq) = true ↔ _
    rw [h, beq_iff_eq, Option.some_inj]
  · rw [lt_iff_lt_unpack, UnpackedFloat.lt, h', beq_iff_eq, Option.some_inj]
    exact Ordering.swap_eq_lt

/-! ### Equal, adjacent and infinite numbers -/

/-- Two numbers are the same infinity. -/
def SameInfinity (x y : Float) : Prop := x.isInf ∧ x == y

/-- Two finite numbers differ by exactly the least positive double. -/
def Adjacent (x y : Float) : Prop := x.isFinite ∧ y.isFinite ∧ |units x - units y| = 1

/-- An infinity has no difference from itself, and an infinite one from every other number. -/
theorem sub_of_isInf {u v : UnpackedFloat} (hu : u.isNaN = false) (hv : v.isNaN = false)
    (h : u.isInf ∨ v.isInf) :
    (u.isInf ∧ u.beq v ∧ UnpackedFloat.sub .binary64 u v = .notANumber) ∨
      (¬u.beq v ∧ ∃ s, UnpackedFloat.sub .binary64 u v = .infinity s) := by
  cases u with
  | notANumber => cases hu
  | infinity s =>
    cases v with
    | notANumber => cases hv
    | infinity s' =>
      cases s <;> cases s'
      · exact .inl ⟨rfl, rfl, rfl⟩
      · exact .inr ⟨Bool.false_ne_true, _, rfl⟩
      · exact .inr ⟨Bool.false_ne_true, _, rfl⟩
      · exact .inl ⟨rfl, rfl, rfl⟩
    | zero | finite => cases s <;> exact .inr ⟨Bool.false_ne_true, _, rfl⟩
  | zero s | finite s =>
    cases v with
    | notANumber => cases hv
    | infinity s' => cases s' <;> cases s <;> exact .inr ⟨Bool.false_ne_true, _, rfl⟩
    | zero | finite => exact (h.elim Bool.false_ne_true Bool.false_ne_true).elim

theorem isInf_iff (hx : x.isNaN = false) : x.isInf ↔ ¬x.isFinite := by
  change x.toModel.unpack.isNaN = false at hx
  change x.toModel.unpack.isInf ↔ ¬x.toModel.unpack.isFinite
  generalize x.toModel.unpack = u at hx
  cases u with
  | notANumber => cases hx
  | infinity => exact iff_of_true rfl Bool.false_ne_true
  | zero | finite => exact iff_of_false Bool.false_ne_true fun h => h rfl

/-- What the difference of two numbers keeps of the exact one. An infinite difference is as good as
any large one. -/
theorem sub_cases (hx : x.isNaN = false) (hy : y.isNaN = false) :
    (x.isFinite ∧ y.isFinite ∧ (x == y ↔ units x = units y) ∧
        Represents (x - y).toModel.unpack (units x - units y)) ∨
      (SameInfinity x y ∧ (x - y).toModel.unpack = .notANumber) ∨
      (¬(x.isFinite ∧ y.isFinite) ∧ ¬x == y ∧ Represents (x - y).toModel.unpack (2 ^ 53)) := by
  by_cases hfinite : x.isFinite ∧ y.isFinite
  · have hu := isUnpacked_unpack x.toModel
    have hv := isUnpacked_unpack y.toModel
    exact .inl ⟨hfinite.1, hfinite.2, beq_iff_unpackedUnits_eq hu hv hfinite.1 hfinite.2,
      represents_sub hu hv hfinite.1 hfinite.2⟩
  · have hinf : x.isInf ∨ y.isInf := by rwa [isInf_iff hx, isInf_iff hy, ← not_and_or]
    obtain ⟨hxinf, heq, hsub⟩ | ⟨hne, s, hsub⟩ := sub_of_isInf hx hy hinf
    · refine .inr (.inl ⟨⟨hxinf, heq⟩, ?_⟩)
      rw [unpack_sub, hsub]
      exact unpack_pack (u := .notANumber) trivial
    · refine .inr (.inr ⟨hfinite, hne, ?_⟩)
      rw [unpack_sub, hsub, unpack_pack_infinity, represents_infinity_iff]
      norm_num

theorem not_beq_of_adjacent (h : Adjacent x y) : ¬x == y := by
  obtain ⟨hx, hy, h⟩ := h
  have hbeq := beq_iff_unpackedUnits_eq (isUnpacked_unpack x.toModel) (isUnpacked_unpack y.toModel)
    hx hy
  intro heq
  rw [show units x = units y from hbeq.1 heq, sub_self, abs_zero] at h
  exact zero_ne_one h

theorem nearlyEqual_iff (hx : x.isNaN = false) (hy : y.isNaN = false) :
    nearlyEqual x y ↔ x == y ∧ ¬SameInfinity x y := by
  rw [nearlyEqual, decide_eq_true_iff]
  obtain ⟨hxf, hyf, heq, hsub⟩ | ⟨hsame, hsub⟩ | ⟨hinf, hne, hsub⟩ := sub_cases hx hy
  · rw [abs_lt_least_iff hsub, sub_eq_zero, heq, iff_self_and]
    exact fun _ hsame => (isInf_iff hx).1 hsame.1 hxf
  · rw [lt_iff_lt_unpack, unpack_abs, hsub]
    exact iff_of_false Bool.false_ne_true fun h => h.2 hsame
  · rw [abs_lt_least_iff hsub]
    exact iff_of_false (by norm_num) fun h => hne h.1

theorem least_lt_abs_sub_iff (hx : x.isNaN = false) (hy : y.isNaN = false) :
    least < (x - y).abs ↔ ¬x == y ∧ ¬Adjacent x y := by
  obtain ⟨hxf, hyf, heq, hsub⟩ | ⟨hsame, hsub⟩ | ⟨hinf, hne, hsub⟩ := sub_cases hx hy
  · rw [least_lt_abs_iff hsub, heq, Adjacent, and_iff_right hxf, and_iff_right hyf, ← sub_eq_zero,
      ← abs_eq_zero]
    have hnonneg := abs_nonneg (units x - units y)
    omega
  · rw [lt_iff_lt_unpack, unpack_abs, hsub]
    exact iff_of_false Bool.false_ne_true fun h => h.1 hsame.2
  · rw [least_lt_abs_iff hsub]
    exact iff_of_true (by norm_num) ⟨hne, fun h => hinf ⟨h.1, h.2.1⟩⟩

/-! ### The six comparisons -/

/-- The operator that asks for an order. -/
def asking : Ordering → Operator
  | .lt => .lessThan
  | .eq => .equal
  | .gt => .greaterThan

/-- One of two operators gives 1, and the other one gives 0. -/
def AreOpposite (op op' : Operator) (x y : Float) : Prop :=
  ∃ b, apply op x y = ofBool b ∧ apply op' x y = ofBool !b

theorem ofBool_inj {a b : Bool} : ofBool a = ofBool b ↔ a = b := by
  cases a <;> cases b <;> decide

theorem ofBool_eq_one_iff {b : Bool} : ofBool b = 1 ↔ b := by
  cases b <;> decide

/-- What the comparisons of two numbers come to. -/
theorem exists_comparisons (hx : x.isNaN = false) (hy : y.isNaN = false) :
    ∃ o : Ordering, (x == y ↔ o = .eq) ∧
      (apply .lessThan x y = 1 ↔ o = .lt) ∧
      (apply .greaterThan x y = 1 ↔ o = .gt) ∧
      (apply .equal x y = 1 ↔ o = .eq ∧ ¬SameInfinity x y) ∧
      (apply .lessEqual x y = 1 ↔ o = .lt ∨ o = .eq ∧ ¬SameInfinity x y) ∧
      (apply .greaterEqual x y = 1 ↔ o = .gt ∨ o = .eq ∧ ¬SameInfinity x y) ∧
      (apply .notEqual x y = 1 ↔ ¬o = .eq ∧ ¬Adjacent x y) := by
  obtain ⟨o, hlt, heq, hgt⟩ := exists_ordering hx hy
  have hnear := nearlyEqual_iff hx hy
  have hfar := least_lt_abs_sub_iff hx hy
  rw [heq] at hnear hfar
  refine ⟨o, heq, ?_, ?_, ?_, ?_, ?_, ?_⟩ <;> rw [apply, ofBool_eq_one_iff]
  · rw [decide_eq_true_iff, hlt]
  · rw [decide_eq_true_iff, gt_iff_lt, hgt]
  · rw [hnear]
  · rw [Bool.or_eq_true, decide_eq_true_iff, hlt, hnear]
  · rw [Bool.or_eq_true, decide_eq_true_iff, gt_iff_lt, hgt, hnear]
  · rw [decide_eq_true_iff, gt_iff_lt, hfar]

/-- Two operators whose values are 0 or 1 are opposite if one of them gives 1. -/
theorem areOpposite_iff {op op' : Operator} {a b : Bool} (hop : apply op x y = ofBool a)
    (hop' : apply op' x y = ofBool b) :
    AreOpposite op op' x y ↔ (apply op x y = 1 ↔ ¬apply op' x y = 1) := by
  rw [AreOpposite, hop, hop', ofBool_eq_one_iff, ofBool_eq_one_iff]
  simp only [ofBool_inj]
  cases a <;> cases b <;> decide

/-- Exactly one order of two numbers holds, and the comparisons agree with each other and with
equality of doubles, if and only if the numbers are not the same infinity. Inequality is the
negation of equality only if they do not differ by the least double either. -/
theorem comparisons_agree_iff (hx : x.isNaN = false) (hy : y.isNaN = false) :
    ((∃! o, apply (asking o) x y = 1) ↔ ¬SameInfinity x y) ∧
      (AreOpposite .lessEqual .greaterThan x y ↔ ¬SameInfinity x y) ∧
      (AreOpposite .greaterEqual .lessThan x y ↔ ¬SameInfinity x y) ∧
      ((apply .equal x y = 1 ↔ x == y) ↔ ¬SameInfinity x y) ∧
      (AreOpposite .notEqual .equal x y ↔ ¬SameInfinity x y ∧ ¬Adjacent x y) := by
  obtain ⟨o, hbeq, hlt, hgt, heq, hle, hge, hne⟩ := exists_comparisons hx hy
  -- The same infinities are equal and adjacent numbers are not, so that no pair is both.
  have hsame : SameInfinity x y → o = .eq := fun h => hbeq.1 h.2
  have hadjacent : Adjacent x y → ¬o = .eq := fun h => mt hbeq.2 (not_beq_of_adjacent h)
  refine ⟨?_, ?_, ?_, ?_, ?_⟩
  · have hasking (o') : apply (asking o') x y = 1 ↔ o' = o ∧ ¬SameInfinity x y := by
      cases o' <;> simp only [asking, hlt, hgt, heq, eq_comm, iff_self_and]
      · rintro rfl h
        cases hsame h
      · rintro rfl h
        cases hsame h
    simp only [hasking]
    exact ⟨fun ⟨_, h, _⟩ => h.2, fun h => ⟨o, ⟨rfl, h⟩, fun _ h' => h'.1⟩⟩
  · rw [areOpposite_iff rfl rfl, hle, hgt]
    cases o <;> simp_all
  · rw [areOpposite_iff rfl rfl, hge, hlt]
    cases o <;> simp_all
  · rw [heq, hbeq]
    exact ⟨fun h hs => (h.2 (hsame hs)).2 hs, fun hs => and_iff_left hs⟩
  · rw [areOpposite_iff rfl rfl, hne, heq]
    refine ⟨fun h => ⟨fun hs => ?_, fun ha => ?_⟩, fun ⟨hs, ha⟩ => ?_⟩
    · exact (h.2 fun heq => heq.2 hs).1 (hsame hs)
    · exact (h.2 fun heq => hadjacent ha heq.1).2 ha
    · rw [and_iff_left ha, and_iff_left hs]

/-- The least double with all its digits, and the greatest one with fewer. -/
theorem comparisons_agree_iff_adjacent :
    let x := Float.ofBits 0x0010000000000000
    let y := Float.ofBits 0x000fffffffffffff
    x.isNaN = false ∧ y.isNaN = false ∧ (∃! o, apply (asking o) x y = 1) ∧
      AreOpposite .lessEqual .greaterThan x y ∧ AreOpposite .greaterEqual .lessThan x y ∧
      (apply .equal x y = 1 ↔ x == y) ∧ ¬AreOpposite .notEqual .equal x y := by
  intro x y
  have hx : x.isNaN = false := by decide +kernel
  have hy : y.isNaN = false := by decide +kernel
  have hsame : ¬SameInfinity x y := by
    rw [SameInfinity]
    decide +kernel
  have hadjacent : Adjacent x y := by
    rw [Adjacent]
    decide +kernel
  obtain ⟨h1, h2, h3, h4, h5⟩ := comparisons_agree_iff hx hy
  exact ⟨hx, hy, h1.2 hsame, h2.2 hsame, h3.2 hsame, h4.2 hsame, fun h => (h5.1 h).2 hadjacent⟩

end Double

/-- No comparison of an infinity with itself holds. The least double is neither equal to zero nor
different. -/
theorem Calculator.evaluate_comparisons :
    let c := Calculator.new {} 0
    let value (source : String) := (c.evaluate source).1.outcome.toOption
    let infinity := Float.ofBits 0x7ff0000000000000
    infinity == infinity ∧ value "1/0" = some infinity ∧ value "5e-324" = some Double.least ∧
      (["1/0 < 1/0", "1/0 == 1/0", "1/0 > 1/0", "1/0 != 1/0", "1/0 <= 1/0", "1/0 >= 1/0",
        "5e-324 == 0", "5e-324 != 0"].map value) = List.replicate 8 (some 0) := by
  decide +kernel

end Reckon
