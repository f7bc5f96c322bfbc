import Reckon.Proofs.Comparison
import Mathlib.Algebra.Order.Field.Power
import Mathlib.Algebra.Order.Field.Rat
import Mathlib.Tactic.FieldSimp
import Mathlib.Tactic.Linarith
import Mathlib.Tactic.Ring

/-!
# How large sums and products are

A sum or a product of finite doubles is the exact one, rounded. Rounding makes a magnitude larger by
half a unit of its last digit at most. So the result is finite if the exact one is less than the
limit halfway between the greatest double and the next power of two, and it is larger than the exact
one by no more than a factor of `1 + 2⁻⁵³`. For products this is so down to the least doubles with
all their digits. Below, a product may be rounded up by more, but it remains less than one.

## Main definitions

* `Double.magnitude`, `Double.size` — the exact magnitude of a number.
* `Double.limit` — the magnitude from which on doubles are infinite.

## Main statements

* `Double.magnitude_rounded_le` — rounding adds half a unit of the last digit at most.
* `Double.isFinite_add`, `Double.isFinite_mul` — sums and products below the limit are finite.
-/

namespace Reckon

namespace Double

open Float.Model (UnpackedFloat)
open Float.Model.UnpackedFloat (Sign ExtendedMantissa decreaseExponent roundWithAccuracy)

/-- The exact value of a mantissa with an exponent. -/
def magnitude (m : ℕ) (e : ℤ) : ℚ := m * 2 ^ e

/-- The exact magnitude of an unpacked number. -/
def unpackedSize (u : UnpackedFloat) : ℚ := |unpackedUnits u| / 2 ^ 1074

/-- The exact magnitude of a double. It is zero for an infinity. -/
def size (x : Float) : ℚ := unpackedSize x.toModel.unpack

/-- Magnitudes below this one are rounded to finite doubles. -/
def limit : ℚ := 2 ^ 1024 - 2 ^ 970

variable {m n k : ℕ} {e e' : ℤ} {s s' : Sign} {x y : Float}

/-! ### Magnitudes -/

theorem magnitude_nonneg (m : ℕ) (e : ℤ) : 0 ≤ magnitude m e := by
  unfold magnitude
  positivity

theorem two_zpow_log2_le (hm : 0 < m) (e : ℤ) : (2 : ℚ) ^ (m.log2 + e) ≤ magnitude m e := by
  rw [magnitude, zpow_add₀ two_ne_zero, zpow_natCast]
  gcongr
  exact_mod_cast Nat.log2_self_le hm.ne'

theorem magnitude_lt_two_zpow (m : ℕ) (e : ℤ) : magnitude m e < (2 : ℚ) ^ (m.log2 + 1 + e) := by
  rw [magnitude, zpow_add₀ two_ne_zero]
  gcongr
  exact_mod_cast Nat.lt_log2_self

theorem magnitude_mul (m n : ℕ) (e e' : ℤ) :
    magnitude (m * n) (e + e') = magnitude m e * magnitude n e' := by
  simp only [magnitude, zpow_add₀ (two_ne_zero' ℚ), Nat.cast_mul]
  ring

/-- Digits that are dropped make a magnitude smaller. -/
theorem magnitude_div_le (m k : ℕ) (e : ℤ) : magnitude (m / 2 ^ k) (e + k) ≤ magnitude m e := by
  rw [magnitude, magnitude, zpow_add₀ two_ne_zero, zpow_natCast, ← mul_assoc, mul_right_comm]
  gcongr
  exact_mod_cast Nat.div_mul_le_self m (2 ^ k)

theorem magnitude_shiftLeft (m k : ℕ) (e : ℤ) : magnitude (m <<< k) (e - k) = magnitude m e := by
  rw [magnitude, magnitude, Nat.shiftLeft_eq, Nat.cast_mul, zpow_sub₀ two_ne_zero, zpow_natCast]
  push_cast
  field_simp

theorem scaled_eq_magnitude (m : ℕ) (he : -1074 ≤ e) :
    (scaled m e : ℚ) = magnitude m e * 2 ^ 1074 := by
  obtain ⟨k, hk⟩ := Int.le.dest he
  have hexponent : (e + 1074).toNat = k := by omega
  have hpow : (2 : ℚ) ^ k = 2 ^ e * 2 ^ 1074 := by
    rw [← zpow_natCast, ← zpow_natCast, ← zpow_add₀ two_ne_zero]
    congr 1
    omega
  rw [scaled, magnitude, hexponent, Nat.cast_mul, Nat.cast_pow, mul_assoc, ← hpow]
  rfl

theorem unpackedSize_zero (s : Sign) : unpackedSize (.zero s) = 0 := by
  rw [unpackedSize, unpackedUnits_zero, abs_zero, Int.cast_zero, zero_div]

theorem unpackedSize_finite (hm : 0 < m) (he : -1074 ≤ e) :
    unpackedSize (.finite s m e hm) = magnitude m e := by
  rw [unpackedSize, unpackedUnits_finite, abs_apply, Nat.abs_cast, Int.cast_natCast,
    scaled_eq_magnitude m he, mul_div_cancel_right₀ _ (by positivity)]

/-! ### Rounding -/

/-- The digits that are dropped are made up for by half a unit of the last digit at most. -/
theorem two_mul_roundedMantissa_le (m k : ℕ) :
    2 * ((shifted m k).roundedMantissa * 2 ^ k) ≤ 2 * m + 2 ^ k := by
  cases k with
  | zero =>
    show 2 * (m * 1) ≤ 2 * m + 1
    omega
  | succ k =>
    have hmantissa : (shifted m k).mantissa = m / 2 ^ k := mantissa_shiftRight _ k
    have hshifted : shifted m (k + 1) = (shifted m k).shiftRightOne := rfl
    -- The digit that is dropped last decides, and there is none to round up for if it is zero.
    have hround : 2 * (shifted m k).shiftRightOne.roundedMantissa ≤ (shifted m k).mantissa + 1 := by
      generalize shifted m k = em
      obtain ⟨M, r, t⟩ := em
      obtain hM | hM := Nat.mod_two_eq_zero_or_one M <;> cases h : r || t <;>
        simp [ExtendedMantissa.shiftRightOne, ExtendedMantissa.roundedMantissa,
          ExtendedMantissa.accuracy, UnpackedFloat.Accuracy.roundToNearestEven, hM, h] <;> omega
    have hdiv : (shifted m k).mantissa * 2 ^ k ≤ m := hmantissa ▸ Nat.div_mul_le_self m (2 ^ k)
    calc 2 * ((shifted m (k + 1)).roundedMantissa * 2 ^ (k + 1))
      _ = 2 * (shifted m k).shiftRightOne.roundedMantissa * 2 ^ (k + 1) := by
        rw [hshifted, mul_assoc]
      _ ≤ ((shifted m k).mantissa + 1) * 2 ^ (k + 1) := Nat.mul_le_mul_right _ hround
      _ = 2 * ((shifted m k).mantissa * 2 ^ k) + 2 ^ (k + 1) := by ring
      _ ≤ 2 * m + 2 ^ (k + 1) := by omega

/-- Rounding adds half a unit of the last digit at most. -/
theorem magnitude_rounded_le (hle : e ≤ fitting m e) :
    magnitude (rounded m e) (fitting m e) ≤ magnitude m e + 2 ^ (fitting m e - 1) := by
  obtain ⟨k, hk⟩ := Int.le.dest hle
  have hrounded : rounded m e = (shifted m k).roundedMantissa := by
    rw [rounded, ← hk, add_sub_cancel_left, Int.toNat_natCast]
  have h : (2 * ((shifted m k).roundedMantissa * 2 ^ k) : ℚ) ≤ 2 * m + 2 ^ k := by
    exact_mod_cast two_mul_roundedMantissa_le m k
  have hpow : (2 : ℚ) ^ (e + k - 1) = 2 ^ k * 2 ^ e / 2 := by
    rw [zpow_sub_one₀ two_ne_zero, zpow_add₀ two_ne_zero, zpow_natCast]
    ring
  have hpos : (0 : ℚ) < 2 ^ e := by positivity
  rw [hrounded, ← hk, magnitude, magnitude, hpow, zpow_add₀ two_ne_zero, zpow_natCast]
  nlinarith

/-- A magnitude that is rounded to a double with all its digits, or not at all, grows by no more
than its last digit allows. -/
theorem magnitude_rounded_le_mul (hm : 0 < m) (hle : e ≤ fitting m e)
    (h : -1074 ≤ e ∨ -1074 < fitting m e) :
    magnitude (rounded m e) (fitting m e) ≤ magnitude m e * (1 + 1 / 2 ^ 53) := by
  by_cases hexact : fitting m e = e
  · rw [rounded_of_fitting hexact, hexact]
    exact le_mul_of_one_le_right (magnitude_nonneg m e) (by norm_num)
  · have hfit : fitting m e - 1 = m.log2 + e - 53 := by
      rw [fitting_eq] at h hexact hle ⊢
      omega
    have hlog := two_zpow_log2_le hm e
    have hbound := magnitude_rounded_le hle
    rw [hfit, zpow_sub₀ two_ne_zero] at hbound
    norm_num at hbound ⊢
    linarith

theorem magnitude_rounded_le_max (hm : 0 < m) (hle : e ≤ fitting m e) :
    magnitude (rounded m e) (fitting m e) ≤ max 1 (magnitude m e) * (1 + 1 / 2 ^ 53) := by
  by_cases h : -1074 < fitting m e
  · refine (magnitude_rounded_le_mul hm hle (.inr h)).trans ?_
    gcongr
    exact le_max_right _ _
  · -- What is rounded to the least exponent is much less than one.
    have hfit := fitting_eq m e
    have hsmall : magnitude m e < 2 ^ (-1 : ℤ) :=
      (magnitude_lt_two_zpow m e).trans_le (zpow_le_zpow_right₀ one_le_two (by omega))
    have hunit : (2 : ℚ) ^ (fitting m e - 1) ≤ 2 ^ (-1 : ℤ) :=
      zpow_le_zpow_right₀ one_le_two (by omega)
    calc magnitude (rounded m e) (fitting m e)
      _ ≤ magnitude m e + 2 ^ (fitting m e - 1) := magnitude_rounded_le hle
      _ ≤ 2 ^ (-1 : ℤ) + 2 ^ (-1 : ℤ) := add_le_add hsmall.le hunit
      _ = 1 := by norm_num
      _ ≤ max 1 (magnitude m e) := le_max_left _ _
      _ ≤ max 1 (magnitude m e) * (1 + 1 / 2 ^ 53) :=
        le_mul_of_one_le_right (by positivity) (by norm_num)

theorem magnitude_rounded_lt (hm : 0 < m) (hle : e ≤ fitting m e) (h : magnitude m e < limit) :
    magnitude (rounded m e) (fitting m e) < 2 ^ (1024 : ℤ) := by
  have hlt : (2 : ℚ) ^ (m.log2 + e) < 2 ^ (1024 : ℤ) :=
    (two_zpow_log2_le hm e).trans_lt (h.trans (sub_lt_self _ (by positivity)))
  have hlog := (zpow_lt_zpow_iff_right₀ one_lt_two).1 hlt
  have hfit := fitting_eq m e
  have hunit : (2 : ℚ) ^ (fitting m e - 1) ≤ 2 ^ (970 : ℤ) :=
    zpow_le_zpow_right₀ one_le_two (by omega)
  calc magnitude (rounded m e) (fitting m e)
    _ ≤ magnitude m e + 2 ^ (fitting m e - 1) := magnitude_rounded_le hle
    _ < limit + 2 ^ 970 := add_lt_add_of_lt_of_le h hunit
    _ = 2 ^ 1024 := sub_add_cancel _ _

/-! ### Packing -/

/-- A number is finite, and its magnitude is within a bound. -/
def IsWithin (u : UnpackedFloat) (q : ℚ) : Prop := u.isFinite ∧ unpackedSize u ≤ q

theorem isWithin_zero (s : Sign) {q : ℚ} (hq : 0 ≤ q) : IsWithin (.zero s) q :=
  ⟨rfl, (unpackedSize_zero s).trans_le hq⟩

theorem IsWithin.mono {u : UnpackedFloat} {q q' : ℚ} (h : IsWithin u q) (hq : q ≤ q') :
    IsWithin u q' :=
  ⟨h.1, h.2.trans hq⟩

/-- A magnitude below the limit is rounded and packed without becoming infinite. -/
theorem isWithin_roundWithAccuracy (s : Sign) (hm : 0 < m) (hle : e ≤ fitting m e)
    (h : magnitude m e < limit) :
    IsWithin (Float.Model.pack (roundWithAccuracy .binary64 s m e .exact)).unpack
      (magnitude (rounded m e) (fitting m e)) := by
  obtain ⟨k, hk, hround⟩ := roundWithAccuracy_eq s hle
  rw [hround]
  by_cases hzero : rounded m e / 2 ^ k = 0
  · rw [dif_pos hzero, unpack_pack (u := .zero s) trivial]
    exact isWithin_zero s (magnitude_nonneg _ _)
  · have hpos : 0 < rounded m e / 2 ^ k := Nat.pos_of_ne_zero hzero
    have hfit := fitting_div hk hpos
    have hdropped := magnitude_div_le (rounded m e) k (fitting m e)
    -- Too large an exponent would mean that the number has all its digits, and is too large.
    have hlt : (2 : ℚ) ^ ((rounded m e / 2 ^ k).log2 + (fitting m e + k)) < 2 ^ (1024 : ℤ) :=
      (two_zpow_log2_le hpos _).trans_lt (hdropped.trans_lt (magnitude_rounded_lt hm hle h))
    have hlog := (zpow_lt_zpow_iff_right₀ one_lt_two).1 hlt
    have hexponent := fitting_eq (rounded m e / 2 ^ k) (fitting m e + k)
    have hlarge : fitting m e + k ≤ 971 := by omega
    have hsmall : -1074 ≤ fitting m e + k := by omega
    rw [dif_neg hzero, unpack_pack_finite s hpos hfit, if_pos hlarge]
    exact ⟨rfl, (unpackedSize_finite hpos hsmall).le.trans hdropped⟩

theorem isWithin_round (s : Sign) (hm : 0 < m) (he : -1074 ≤ e) (h : magnitude m e < limit) :
    IsWithin (Float.Model.pack (.round .binary64 s m e)).unpack
      (magnitude m e * (1 + 1 / 2 ^ 53)) := by
  -- The exponent is lowered first, if it is larger than the one that fits.
  obtain ⟨k, hk⟩ : ∃ k, (e - fitting m e).toNat = k := ⟨_, rfl⟩
  have hM : 0 < m <<< k := by
    rw [Nat.shiftLeft_eq]
    positivity
  have hfit := fitting_eq m e
  have hfitting : fitting (m <<< k) (e - k) = fitting m e := fitting_shiftLeft hm
  have hmagnitude := magnitude_shiftLeft m k e
  have hrounds : UnpackedFloat.round .binary64 s m e =
      roundWithAccuracy .binary64 s (m <<< k) (e - k) .exact := by
    rw [← hk]
    rfl
  rw [hrounds, ← hmagnitude]
  refine (isWithin_roundWithAccuracy s hM (by omega) (hmagnitude.trans_lt h)).mono ?_
  exact magnitude_rounded_le_mul hM (by omega) (.inl (by omega))

theorem isWithin_normalize {z : ℤ} (he : -1074 ≤ e) (h : magnitude z.natAbs e < limit) :
    IsWithin (Float.Model.pack (.normalize .binary64 z e .positive)).unpack
      (magnitude z.natAbs e * (1 + 1 / 2 ^ 53)) := by
  unfold UnpackedFloat.normalize
  split
  · next hz =>
    rw [Int.compare_eq_lt] at hz
    have hnat : (-z).toNat = z.natAbs := by omega
    rw [hnat]
    exact isWithin_round .negative (by omega) he h
  · rw [unpack_pack (u := .zero .positive) trivial]
    exact isWithin_zero _ (mul_nonneg (magnitude_nonneg _ _) (by norm_num))
  · next hz =>
    rw [Int.compare_eq_gt] at hz
    have hnat : z.toNat = z.natAbs := by omega
    rw [hnat]
    exact isWithin_round .positive (by omega) he h

/-! ### Sums and products -/

theorem unpack_add (x y : Float) : (x + y).toModel.unpack =
    (Float.Model.pack (.add .binary64 x.toModel.unpack y.toModel.unpack)).unpack :=
  rfl

theorem unpack_mul (x y : Float) : (x * y).toModel.unpack =
    (Float.Model.pack (.mul .binary64 x.toModel.unpack y.toModel.unpack)).unpack :=
  rfl

theorem unpackedSize_nonneg (u : UnpackedFloat) : 0 ≤ unpackedSize u := by
  unfold unpackedSize
  positivity

/-- Nothing is added in advance: the exact sum of two numbers is at most the sum of magnitudes. -/
theorem magnitude_sum_le (s s' : Sign) (he : -1074 ≤ e) (he' : -1074 ≤ e') (hm : 0 < m)
    (hn : 0 < n) :
    magnitude (s.apply (decreaseExponent m e (min e e')).1 +
        s'.apply (decreaseExponent n e' (min e e')).1).natAbs (min e e') ≤
      unpackedSize (.finite s m e hm) + unpackedSize (.finite s' n e' hn) := by
  have hmin : -1074 ≤ min e e' := le_min he he'
  generalize hz : s.apply (decreaseExponent m e (min e e')).1 +
    s'.apply (decreaseExponent n e' (min e e')).1 = z
  have hunits : z * 2 ^ (min e e' + 1074).toNat =
      s.apply (scaled m e) + s'.apply (scaled n e') := by
    rw [← hz, add_mul, apply_decreaseExponent s hmin (min_le_left e e'),
      apply_decreaseExponent s' hmin (min_le_right e e')]
  have habs : (scaled z.natAbs (min e e') : ℤ) ≤
      |s.apply (scaled m e)| + |s'.apply (scaled n e')| := by
    have hpow : (0 : ℤ) ≤ 2 ^ (min e e' + 1074).toNat := by positivity
    rw [scaled, Nat.cast_mul, Int.natCast_natAbs, Nat.cast_pow, Nat.cast_ofNat,
      ← abs_of_nonneg hpow, ← abs_mul, hunits]
    exact abs_add_le _ _
  rw [unpackedSize, unpackedSize, unpackedUnits_finite, unpackedUnits_finite, ← add_div,
    le_div_iff₀ (by positivity), ← scaled_eq_magnitude _ hmin]
  exact_mod_cast habs

theorem isWithin_add {u v : UnpackedFloat} (hu : IsUnpacked u) (hv : IsUnpacked v)
    (hfu : u.isFinite) (hfv : v.isFinite) (h : unpackedSize u + unpackedSize v < limit) :
    IsWithin (Float.Model.pack (.add .binary64 u v)).unpack
      ((unpackedSize u + unpackedSize v) * (1 + 1 / 2 ^ 53)) := by
  have hself {w : UnpackedFloat} (hw : w.isFinite) :
      IsWithin w (unpackedSize w * (1 + 1 / 2 ^ 53)) :=
    ⟨hw, le_mul_of_one_le_right (unpackedSize_nonneg w) (by norm_num)⟩
  cases u with
  | infinity => cases hfu
  | notANumber => cases hfu
  | zero s =>
    rw [unpackedSize_zero, zero_add]
    cases v with
    | infinity => cases hfv
    | notANumber => cases hfv
    | zero s' => cases s <;> cases s' <;> exact hself rfl
    | finite s' n e' hn =>
      have hadd : UnpackedFloat.add .binary64 (.zero s) (.finite s' n e' hn) = .finite s' n e' hn :=
        rfl
      rw [hadd, unpack_pack hv]
      exact hself rfl
  | finite s m e hm =>
    cases v with
    | infinity => cases hfv
    | notANumber => cases hfv
    | zero s' =>
      have hadd : UnpackedFloat.add .binary64 (.finite s m e hm) (.zero s') = .finite s m e hm :=
        rfl
      rw [hadd, unpack_pack hu, unpackedSize_zero, add_zero]
      exact hself rfl
    | finite s' n e' hn =>
      have he := hu.1
      have he' := hv.1
      rw [fitting_eq] at he he'
      have hle := magnitude_sum_le s s' (by omega : -1074 ≤ e) (by omega : -1074 ≤ e') hm hn
      refine (isWithin_normalize (by omega) (hle.trans_lt h)).mono ?_
      gcongr

theorem isWithin_mul {u v : UnpackedFloat} (hu : IsUnpacked u) (hv : IsUnpacked v)
    (hfu : u.isFinite) (hfv : v.isFinite) (h : unpackedSize u * unpackedSize v < limit) :
    IsWithin (Float.Model.pack (.mul .binary64 u v)).unpack
      (max 1 (unpackedSize u * unpackedSize v) * (1 + 1 / 2 ^ 53)) := by
  have hzero (s : Sign) : IsWithin (Float.Model.pack (.zero s)).unpack
      (max 1 (unpackedSize u * unpackedSize v) * (1 + 1 / 2 ^ 53)) := by
    rw [unpack_pack (u := .zero s) trivial]
    exact isWithin_zero s (by positivity)
  cases u with
  | infinity => cases hfu
  | notANumber => cases hfu
  | zero s =>
    cases v with
    | infinity => cases hfv
    | notANumber => cases hfv
    | zero | finite => exact hzero _
  | finite s m e hm =>
    cases v with
    | infinity => cases hfv
    | notANumber => cases hfv
    | zero => exact hzero _
    | finite s' n e' hn =>
      have he := hu.1
      have he' := hv.1
      have hlarge := hu.2
      have hlarge' := hv.2
      rw [fitting_eq] at he he'
      rw [unpackedSize_finite hm (by omega), unpackedSize_finite hn (by omega),
        ← magnitude_mul] at h ⊢
      -- The exact product has at least as many digits as the factors, or a very small exponent.
      have hlog : m.log2 ≤ (m * n).log2 ∧ n.log2 ≤ (m * n).log2 := by
        simp only [Nat.log2_eq_log_two]
        exact ⟨Nat.log_mono_right (Nat.le_mul_of_pos_right m hn),
          Nat.log_mono_right (Nat.le_mul_of_pos_left n hm)⟩
      have hmn : 0 < m * n := Nat.mul_pos hm hn
      have hle : e + e' ≤ fitting (m * n) (e + e') := by
        rw [fitting_eq]
        omega
      exact (isWithin_roundWithAccuracy (s * s') hmn hle h).mono (magnitude_rounded_le_max hmn hle)

/-- A sum is finite if the exact one is below the limit whatever the signs are. -/
theorem isFinite_add (hx : x.isFinite) (hy : y.isFinite) (h : size x + size y < limit) :
    (x + y).isFinite ∧ size (x + y) ≤ (size x + size y) * (1 + 1 / 2 ^ 53) := by
  show IsWithin (x + y).toModel.unpack _
  rw [unpack_add]
  exact isWithin_add (isUnpacked_unpack _) (isUnpacked_unpack _) hx hy h

/-- A product is finite if the exact one is below the limit. -/
theorem isFinite_mul (hx : x.isFinite) (hy : y.isFinite) (h : size x * size y < limit) :
    (x * y).isFinite ∧ size (x * y) ≤ max 1 (size x * size y) * (1 + 1 / 2 ^ 53) := by
  show IsWithin (x * y).toModel.unpack _
  rw [unpack_mul]
  exact isWithin_mul (isUnpacked_unpack _) (isUnpacked_unpack _) hx hy h

end Double

end Reckon
