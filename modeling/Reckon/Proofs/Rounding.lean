import Mathlib.Algebra.Order.Ring.Int
import Mathlib.Data.Nat.Log
import Mathlib.Tactic.NormNum
import Mathlib.Tactic.Positivity

/-!
# Rounding to a double

A double is a whole number of units of the least positive double. Every magnitude has one exponent
that fits it: the one that leaves it 53 digits, or the least exponent there is, if that is larger.
Rounding gives a number this exponent. Nothing is lost of a magnitude that has no more than 53
digits when it is counted in units, and a larger one stays large, so that the numbers near zero can
be told from all others by what they are rounded to.

## Main definitions

* `Double.scaled` — a mantissa with an exponent, counted in units.
* `Double.units` — the exact value of a double, counted in units.
* `Double.fitting` — the exponent that fits a magnitude.

## Main statements

* `Double.beq_iff_unpackedUnits_eq` — finite doubles are equal if their exact values are.
* `Double.exists_finite_of_round` — what a magnitude is rounded to.
* `Double.unpack_pack` — packing loses nothing of what may be unpacked from a double.
* `Double.pack_unpack` — unpacking loses nothing of a double.
-/

namespace Reckon

namespace Double

open Float.Model (UnpackedFloat Format totalExponent)
open Float.Model.UnpackedFloat (Sign ExtendedMantissa packComponents packedInfinity
  roundWithAccuracy shiftToTargetExponent unpackExponent unpackMantissa unpackSign)

/-! ### Exact values -/

/-- A mantissa with an exponent, in units of the least positive double. -/
def scaled (m : ℕ) (e : ℤ) : ℕ := m * 2 ^ (e + 1074).toNat

/-- The exact value of an unpacked number in units of the least positive double. -/
def unpackedUnits : UnpackedFloat → ℤ
  | .finite s m e _ => s.apply (scaled m e)
  | _ => 0

/-- The exact value of a double in units of the least positive one. It is zero for an infinity. -/
def units (x : Float) : ℤ := unpackedUnits x.toModel.unpack

/-- The exponent that fits a magnitude: the one that a double of this size has. -/
def fitting (m : ℕ) (e : ℤ) : ℤ := Format.binary64.targetExponent (totalExponent m e)

theorem fitting_eq (m : ℕ) (e : ℤ) : fitting m e = max (m.log2 + e - 52) (-1074) := by
  show max ((m.log2 : ℤ) + 1 + e - ((1 + 52 : ℕ) : ℤ)) (3 - 2 ^ 10 - ((1 + 52 : ℕ) : ℤ)) = _
  omega

/-- A number may have been unpacked from a double: its exponent fits, and is not too large. -/
def IsUnpacked : UnpackedFloat → Prop
  | .finite _ m e _ => fitting m e = e ∧ e ≤ 971
  | _ => True

variable {m n k : ℕ} {e e' : ℤ} {s s' : Sign}

theorem unpackedUnits_zero (s : Sign) : unpackedUnits (.zero s) = 0 := rfl

theorem unpackedUnits_finite (hm : 0 < m) :
    unpackedUnits (.finite s m e hm) = s.apply (scaled m e) :=
  rfl

theorem isUnpacked_finite_iff (hm : 0 < m) :
    IsUnpacked (.finite s m e hm) ↔ fitting m e = e ∧ e ≤ 971 :=
  Iff.rfl

theorem log2_mul_two_pow (hm : 0 < m) (k : ℕ) : (m * 2 ^ k).log2 = m.log2 + k := by
  induction k with
  | zero => simp
  | succ k ih =>
    rw [pow_succ, ← mul_assoc, mul_comm _ 2, Nat.log2_two_mul (by positivity), ih]
    omega

theorem log2_div_two_pow (m k : ℕ) : (m / 2 ^ k).log2 = m.log2 - k := by
  simp only [Nat.log2_eq_log_two, Nat.log_div_base_pow]

theorem scaled_pos (hm : 0 < m) : 0 < scaled m e := by
  unfold scaled
  positivity

theorem log2_scaled (hm : 0 < m) (he : -1074 ≤ e) :
    ((scaled m e).log2 : ℤ) = m.log2 + e + 1074 := by
  rw [scaled, log2_mul_two_pow hm]
  omega

theorem scaled_shiftLeft (he : -1074 ≤ e - k) : scaled (m <<< k) (e - k) = scaled m e := by
  have hexponent : (e + 1074).toNat = k + (e - k + 1074).toNat := by omega
  rw [scaled, scaled, Nat.shiftLeft_eq, hexponent, pow_add, mul_assoc]

theorem fitting_shiftLeft (hm : 0 < m) : fitting (m <<< k) (e - k) = fitting m e := by
  rw [fitting_eq, fitting_eq, Nat.shiftLeft_eq, log2_mul_two_pow hm]
  congr 1
  omega

/-- If the exponents fit, equal values are written alike. -/
theorem scaled_inj (hm : 0 < m) (hn : 0 < n) (he : fitting m e = e) (he' : fitting n e' = e') :
    scaled m e = scaled n e' ↔ m = n ∧ e = e' := by
  refine ⟨fun h => ?_, fun ⟨hmn, hee'⟩ => by rw [hmn, hee']⟩
  -- Equal values have equally many digits, and these determine the exponent.
  rw [fitting_eq] at he he'
  have hlog : m.log2 + e = n.log2 + e' := by
    have hlog := congrArg (fun n => (n.log2 : ℤ)) h
    rw [log2_scaled hm (by omega), log2_scaled hn (by omega)] at hlog
    omega
  obtain rfl : e = e' := by rw [← he, ← he', hlog]
  exact ⟨Nat.eq_of_mul_eq_mul_right (by positivity) h, rfl⟩

/-! ### Equal values -/

theorem apply_eq_zero_iff {z : ℤ} : s.apply z = 0 ↔ z = 0 := by
  cases s <;> simp [Sign.apply]

theorem abs_apply (s : Sign) (z : ℤ) : |s.apply z| = |z| := by
  cases s
  · exact abs_neg z
  · rfl

theorem unpackedUnits_finite_ne_zero (hm : 0 < m) : unpackedUnits (.finite s m e hm) ≠ 0 := by
  have hpos : 0 < scaled m e := scaled_pos hm
  rw [unpackedUnits_finite, ne_eq, apply_eq_zero_iff]
  omega

theorem beq_finite_iff (hm : 0 < m) (hn : 0 < n) :
    (UnpackedFloat.finite s m e hm).beq (.finite s' n e' hn) ↔ s = s' ∧ m = n ∧ e = e' := by
  cases s <;> cases s'
  · show (some ((compare e e').then (compare m n)).swap == some .eq) = true ↔ _
    rw [beq_iff_eq, Option.some_inj, Ordering.swap_eq_eq, Ordering.then_eq_eq, Int.compare_eq_eq,
      Nat.compare_eq_eq]
    simp [and_comm]
  · exact iff_of_false Bool.false_ne_true (by simp)
  · exact iff_of_false Bool.false_ne_true (by simp)
  · show (some ((compare e e').then (compare m n)) == some .eq) = true ↔ _
    rw [beq_iff_eq, Option.some_inj, Ordering.then_eq_eq, Int.compare_eq_eq, Nat.compare_eq_eq]
    simp [and_comm]

/-- No finite number other than zero is equal to zero. -/
theorem beq_zero_finite (hm : 0 < m) : (UnpackedFloat.zero s).beq (.finite s' m e hm) = false := by
  cases s' <;> rfl

theorem beq_finite_zero (hm : 0 < m) : (UnpackedFloat.finite s m e hm).beq (.zero s') = false := by
  cases s <;> rfl

/-- Two finite numbers are equal if their exact values are. -/
theorem beq_iff_unpackedUnits_eq {u v : UnpackedFloat} (hu : IsUnpacked u) (hv : IsUnpacked v)
    (hfu : u.isFinite) (hfv : v.isFinite) : u.beq v ↔ unpackedUnits u = unpackedUnits v := by
  cases u with
  | infinity => cases hfu
  | notANumber => cases hfu
  | zero s =>
    cases v with
    | infinity => cases hfv
    | notANumber => cases hfv
    | zero s' => exact iff_of_true rfl rfl
    | finite s' n e' hn =>
      rw [beq_zero_finite hn]
      exact iff_of_false Bool.false_ne_true (unpackedUnits_finite_ne_zero hn).symm
  | finite s m e hm =>
    cases v with
    | infinity => cases hfv
    | notANumber => cases hfv
    | zero s' =>
      rw [beq_finite_zero hm]
      exact iff_of_false Bool.false_ne_true (unpackedUnits_finite_ne_zero hm)
    | finite s' n e' hn =>
      have hpos : 0 < scaled m e := scaled_pos hm
      have hpos' : 0 < scaled n e' := scaled_pos hn
      rw [beq_finite_iff, ← scaled_inj hm hn hu.1 hv.1, unpackedUnits_finite,
        unpackedUnits_finite]
      cases s <;> cases s' <;> simp [Sign.apply] <;> omega

/-! ### Rounding -/

theorem finite_congr {hm : 0 < m} {hn : 0 < n} (h : m = n) (h' : e = e') :
    UnpackedFloat.finite s m e hm = .finite s n e' hn := by
  subst h h'
  rfl

theorem mantissa_shiftRight (em : ExtendedMantissa) (k : ℕ) :
    (em >>> k).mantissa = em.mantissa / 2 ^ k := by
  induction k with
  | zero => exact (Nat.div_one _).symm
  | succ k ih =>
    show (em >>> k).mantissa / 2 = _
    rw [ih, Nat.div_div_eq_div_mul, pow_succ]

theorem mantissa_le_roundedMantissa (em : ExtendedMantissa) : em.mantissa ≤ em.roundedMantissa := by
  obtain ⟨m, _ | _, _ | _⟩ := em
  · exact le_refl m
  · exact le_refl m
  · exact Nat.le_add_right m _
  · exact Nat.le_add_right m _

/-- A mantissa with its digits shifted to the right, and what is kept of those that are dropped. -/
def shifted (m k : ℕ) : ExtendedMantissa := (⟨m, false, false⟩ : ExtendedMantissa) >>> k

/-- The mantissa that a magnitude is rounded to at the exponent that fits it. -/
def rounded (m : ℕ) (e : ℤ) : ℕ := (shifted m (fitting m e - e).toNat).roundedMantissa

theorem rounded_of_fitting (h : fitting m e = e) : rounded m e = m := by
  rw [rounded, h, sub_self]
  rfl

/-- Rounding up keeps the leading digit, or gives the next power of two. -/
theorem log2_sub_le_log2_rounded (m : ℕ) (e : ℤ) :
    m.log2 - (fitting m e - e).toNat ≤ (rounded m e).log2 := by
  have hle := mantissa_le_roundedMantissa (shifted m (fitting m e - e).toNat)
  rw [shifted, mantissa_shiftRight] at hle
  rw [← log2_div_two_pow]
  simp only [Nat.log2_eq_log_two]
  exact Nat.log_mono_right hle

theorem rounded_pos (h : (fitting m e - e).toNat ≤ m.log2) (hm : 0 < m) : 0 < rounded m e := by
  have hle := mantissa_le_roundedMantissa (shifted m (fitting m e - e).toNat)
  rw [shifted, mantissa_shiftRight] at hle
  exact (Nat.div_pos ((Nat.le_log2 hm.ne').1 h) (by positivity)).trans_le hle

theorem shiftToTargetExponent_eq (hle : e ≤ fitting m e) :
    shiftToTargetExponent .binary64 m e .exact =
      (shifted m (fitting m e - e).toNat, fitting m e) := by
  show (shifted m (fitting m e - e).toNat, e + ((fitting m e - e).toNat : ℤ)) = _
  rw [Int.toNat_of_nonneg (sub_nonneg.2 hle), add_sub_cancel]

/-- Rounding up may only enlarge the exponent that fits. -/
theorem fitting_le_fitting_rounded (hle : e ≤ fitting m e) :
    fitting m e ≤ fitting (rounded m e) (fitting m e) := by
  have hlog := log2_sub_le_log2_rounded m e
  rw [fitting_eq (rounded m e)]
  rw [fitting_eq m e] at hle hlog ⊢
  omega

/-- A mantissa that is rounded up may have one digit too many, and is then shifted once more. -/
theorem roundWithAccuracy_eq (s : Sign) (hle : e ≤ fitting m e) :
    ∃ k : ℕ, fitting (rounded m e) (fitting m e) = fitting m e + k ∧
      roundWithAccuracy .binary64 s m e .exact =
        if h : rounded m e / 2 ^ k = 0 then .zero s
        else .finite s (rounded m e / 2 ^ k) (fitting m e + k) (Nat.pos_of_ne_zero h) := by
  have hle' := fitting_le_fitting_rounded hle
  obtain ⟨k, hk⟩ := Int.le.dest hle'
  have hshift := shiftToTargetExponent_eq hle'
  rw [← hk, add_sub_cancel_left, Int.toNat_natCast] at hshift
  refine ⟨k, hk.symm, ?_⟩
  show (let p := shiftToTargetExponent .binary64 m e .exact
    let q := shiftToTargetExponent .binary64 p.1.roundedMantissa p.2 .exact
    if h : q.1.mantissa = 0 then UnpackedFloat.zero s
    else .finite s q.1.mantissa q.2 (Nat.pos_of_ne_zero h)) = _
  rw [shiftToTargetExponent_eq hle]
  show (let q := shiftToTargetExponent .binary64 (rounded m e) (fitting m e) .exact
    if h : q.1.mantissa = 0 then UnpackedFloat.zero s
    else .finite s q.1.mantissa q.2 (Nat.pos_of_ne_zero h)) = _
  rw [hshift]
  have hmantissa : (shifted (rounded m e) k).mantissa = rounded m e / 2 ^ k :=
    mantissa_shiftRight _ k
  exact dite_congr (by rw [hmantissa]) (fun _ => rfl) fun _ => finite_congr hmantissa rfl

/-- As many digits are dropped as the exponent grows by, so that it fits again. -/
theorem fitting_div (hk : fitting m e = e + k) (hpos : 0 < m / 2 ^ k) :
    fitting (m / 2 ^ k) (e + k) = e + k := by
  have hlog := log2_div_two_pow m k
  have hle : k ≤ m.log2 := by
    rw [Nat.le_log2 (Nat.pos_of_div_pos hpos).ne']
    exact (Nat.div_pos_iff.1 hpos).2
  rw [fitting_eq] at hk ⊢
  omega

/-- A magnitude that has digits above the least exponent is not rounded to zero. -/
theorem exists_finite_of_roundWithAccuracy (s : Sign) (hm : 0 < m) (he : -1074 ≤ e)
    (hle : e ≤ fitting m e) :
    ∃ n e' hn, roundWithAccuracy .binary64 s m e .exact = .finite s n e' hn ∧
      fitting n e' = e' ∧ fitting m e ≤ e' ∧ (fitting m e = e → n = m ∧ e' = e) := by
  obtain ⟨k, hk, hround⟩ := roundWithAccuracy_eq s hle
  have hpos : 0 < rounded m e / 2 ^ k := by
    have hfit := fitting_eq m e
    have hfit' := fitting_eq (rounded m e) (fitting m e)
    have hrounded : 0 < rounded m e := rounded_pos (by omega) hm
    exact Nat.div_pos ((Nat.le_log2 hrounded.ne').1 (by omega)) (by positivity)
  rw [dif_neg hpos.ne'] at hround
  refine ⟨_, _, _, hround, fitting_div hk hpos, by omega, fun h => ?_⟩
  obtain rfl : k = 0 := by
    rw [rounded_of_fitting h, h, h] at hk
    omega
  rw [rounded_of_fitting h, pow_zero, Nat.div_one, h]
  exact ⟨rfl, add_zero e⟩

/-- A magnitude is rounded to a number whose exponent fits. That is the same magnitude, unless both
have more than 53 digits in units. -/
theorem exists_finite_of_round (s : Sign) (hm : 0 < m) (he : -1074 ≤ e) :
    ∃ n e' hn, UnpackedFloat.round .binary64 s m e = .finite s n e' hn ∧
      fitting n e' = e' ∧
      (scaled n e' = scaled m e ∨ 2 ^ 53 ≤ scaled m e ∧ 2 ^ 53 ≤ scaled n e') := by
  -- The exponent is lowered first, if it is larger than the one that fits.
  obtain ⟨k, hk⟩ : ∃ k, (e - fitting m e).toNat = k := ⟨_, rfl⟩
  have hfit := fitting_eq m e
  have hM : 0 < m <<< k := by
    rw [Nat.shiftLeft_eq]
    positivity
  have hfitting : fitting (m <<< k) (e - k) = fitting m e := fitting_shiftLeft hm
  have hscaled : scaled (m <<< k) (e - k) = scaled m e := scaled_shiftLeft (by omega)
  obtain ⟨n, e', hn, hround, hfit', hle, hexact⟩ :=
    exists_finite_of_roundWithAccuracy s hM (e := e - k) (by omega) (by omega)
  have hrounds : UnpackedFloat.round .binary64 s m e = .finite s n e' hn := by
    rw [← hround, ← hk]
    rfl
  refine ⟨n, e', hn, hrounds, hfit', ?_⟩
  -- Digits are dropped only above the least exponent, and then there are more than enough of them.
  by_cases hbottom : fitting m e = -1074
  · left
    obtain ⟨rfl, rfl⟩ := hexact (by omega)
    exact hscaled
  · right
    rw [fitting_eq] at hfit'
    rw [← Nat.le_log2 (scaled_pos hm).ne', ← Nat.le_log2 (scaled_pos hn).ne']
    have hlog := log2_scaled hm he
    have hlog' := log2_scaled (e := e') hn (by omega)
    omega

/-! ### Unpacking -/

theorem toNat_implicit_append (v : BitVec 52) : (1#1 ++ v).toNat = 2 ^ 52 + v.toNat := by
  rw [BitVec.toNat_append, ← Nat.shiftLeft_add_eq_or_of_lt v.isLt]
  rfl

theorem implicit_append_pos (v : BitVec 52) : 0 < (1#1 ++ v).toNat := by
  rw [toNat_implicit_append]
  omega

theorem log2_implicit_append (v : BitVec 52) : (1#1 ++ v).toNat.log2 = 52 := by
  have hlt := v.isLt
  rw [toNat_implicit_append, Nat.log2_eq_iff (by omega)]
  omega

theorem toNat_pos {v : BitVec 52} (hv : v ≠ 0) : 0 < v.toNat :=
  Nat.pos_of_ne_zero fun h => hv (BitVec.eq_of_toNat_eq h)

/-- What a double is unpacked to, by its sign, its exponent and its mantissa. -/
theorem unpack_of_parts {b : BitVec Format.binary64.numBits} {w : BitVec 11} {v : BitVec 52}
    (hs : Sign.ofBitVec (unpackSign b) = s) (hw : unpackExponent b = w)
    (hv : unpackMantissa b = v) :
    UnpackedFloat.unpack .binary64 b =
      if w = -1 then if v = 0 then .infinity s else .notANumber
      else if w = 0 then if h : v = 0 then .zero s else .finite s v.toNat (-1074) (toNat_pos h)
      else .finite s (1#1 ++ v).toNat (w.toNat - 1075) (implicit_append_pos v) := by
  subst hs hw hv
  refine ite_congr rfl (fun _ => rfl) fun _ => ite_congr rfl (fun hzero => ?_) fun _ => rfl
  -- The least exponent is not the one that is written, which is zero, but the next larger one.
  have hexponent : ((unpackExponent b).toNat : ℤ) - 1075 + 1 = -1074 := by
    rw [hzero]
    rfl
  exact dite_congr rfl (fun _ => rfl) fun _ => finite_congr rfl hexponent

/-- There are five kinds of doubles, by their exponent and their mantissa. -/
theorem unpack_cases {motive : UnpackedFloat → Prop} (b : BitVec Format.binary64.numBits)
    (hs : Sign.ofBitVec (unpackSign b) = s)
    (hinfinity : unpackExponent b = -1 → unpackMantissa b = 0 → motive (.infinity s))
    (hnan : unpackExponent b = -1 → unpackMantissa b ≠ 0 → motive .notANumber)
    (hzero : unpackExponent b = 0 → unpackMantissa b = 0 → motive (.zero s))
    (hsubnormal : unpackExponent b = 0 → ∀ hpos : 0 < (unpackMantissa b).toNat,
      motive (.finite s (unpackMantissa b).toNat (-1074) hpos))
    (hnormal : unpackExponent b ≠ -1 → unpackExponent b ≠ 0 →
      ∀ hpos : 0 < (1#1 ++ unpackMantissa b).toNat,
        motive (.finite s (1#1 ++ unpackMantissa b).toNat ((unpackExponent b).toNat - 1075) hpos)) :
    motive (UnpackedFloat.unpack .binary64 b) := by
  rw [unpack_of_parts hs rfl rfl]
  by_cases hw : unpackExponent b = -1
  · rw [if_pos hw]
    by_cases hv : unpackMantissa b = 0
    · rw [if_pos hv]
      exact hinfinity hw hv
    · rw [if_neg hv]
      exact hnan hw hv
  · rw [if_neg hw]
    by_cases hw0 : unpackExponent b = 0
    · rw [if_pos hw0]
      by_cases hv : unpackMantissa b = 0
      · rw [dif_pos hv]
        exact hzero hw0 hv
      · rw [dif_neg hv]
        exact hsubnormal hw0 _
    · rw [if_neg hw0]
      exact hnormal hw hw0 _

theorem isUnpacked_subnormal (s : Sign) {v : BitVec 52} (hv : 0 < v.toNat) :
    IsUnpacked (.finite s v.toNat (-1074) hv) := by
  have hlog : v.toNat.log2 < 52 := (Nat.log2_lt hv.ne').2 v.isLt
  rw [isUnpacked_finite_iff, fitting_eq]
  omega

theorem isUnpacked_normal (s : Sign) (v : BitVec 52) {w : BitVec 11} (hones : w ≠ -1)
    (hzero : w ≠ 0) (hpos : 0 < (1#1 ++ v).toNat) :
    IsUnpacked (.finite s (1#1 ++ v).toNat (w.toNat - 1075) hpos) := by
  have hlt := w.isLt
  have hzero' : w.toNat ≠ 0 := fun h => hzero (BitVec.eq_of_toNat_eq h)
  have hones' : w.toNat ≠ 2047 := fun h => hones (BitVec.eq_of_toNat_eq h)
  rw [isUnpacked_finite_iff, fitting_eq, log2_implicit_append]
  omega

theorem isUnpacked_unpack (x : Float.Model) : IsUnpacked x.unpack := by
  refine unpack_cases x.toBits.toBitVec rfl (fun _ _ => trivial) (fun _ _ => trivial)
    (fun _ _ => trivial) (fun _ hpos => ?_) fun hones hzero hpos => ?_
  · exact isUnpacked_subnormal _ hpos
  · exact isUnpacked_normal _ _ hones hzero hpos

/-! ### Packing -/

theorem ofBitVec_toBitVec (s : Sign) : Sign.ofBitVec s.toBitVec = s := by
  cases s <;> rfl

theorem toBitVec_ofBitVec : ∀ b : BitVec 1, (Sign.ofBitVec b).toBitVec = b := by
  decide

theorem unpackSign_packComponents (s : Sign) (w : BitVec 11) (v : BitVec 52) :
    unpackSign (packComponents .binary64 s w v) = s.toBitVec := by
  show (s.toBitVec ++ w ++ v).extractLsb' 63 1 = s.toBitVec
  rw [BitVec.extractLsb'_append_eq_of_le (by omega), BitVec.extractLsb'_append_eq_of_le (by omega)]
  exact BitVec.extractLsb'_eq_self

/-- The parts of a double, put together again. -/
theorem packComponents_unpack (b : BitVec Format.binary64.numBits) :
    packComponents .binary64 (Sign.ofBitVec (unpackSign b)) (unpackExponent b) (unpackMantissa b) =
      b := by
  have hhigh : (63 : ℕ) = 52 + 11 := rfl
  have hlow : (52 : ℕ) = 0 + 52 := rfl
  rw [packComponents, toBitVec_ofBitVec]
  show b.extractLsb' 63 1 ++ b.extractLsb' 52 11 ++ b.extractLsb' 0 52 = b
  rw [BitVec.extractLsb'_append_extractLsb'_eq_extractLsb' hhigh,
    BitVec.extractLsb'_append_extractLsb'_eq_extractLsb' hlow]
  exact BitVec.extractLsb'_eq_self

theorem unpack_packComponents (s : Sign) (w : BitVec 11) (v : BitVec 52) :
    UnpackedFloat.unpack .binary64 (packComponents .binary64 s w v) =
      if w = -1 then if v = 0 then .infinity s else .notANumber
      else if w = 0 then if h : v = 0 then .zero s else .finite s v.toNat (-1074) (toNat_pos h)
      else .finite s (1#1 ++ v).toNat (w.toNat - 1075) (implicit_append_pos v) := by
  refine unpack_of_parts ?_ UnpackedFloat.unpackExponent_packComponents
    UnpackedFloat.unpackMantissa_packComponents
  rw [unpackSign_packComponents, ofBitVec_toBitVec]

theorem unpack_pack_infinity (s : Sign) :
    (Float.Model.pack (.infinity s)).unpack = .infinity s := by
  cases s <;> rfl

theorem pack_finite (s : Sign) (hm : 0 < m) {w : ℕ} (hw : (e + 1075).toNat = w) :
    UnpackedFloat.pack .binary64 (.finite s m e hm) =
      if 2048 ≤ w + 1 then packedInfinity .binary64 s
      else if m.log2 + 1 = 53 then packComponents .binary64 s (.ofNat 11 w) (.ofNat 52 m)
      else packComponents .binary64 s 0#11 (.ofNat 52 m) := by
  have hbias : (e + 1023 + 52).toNat = w := by omega
  subst hbias
  rfl

/-- A number whose exponent fits is packed without loss, or it is too large and becomes infinite. -/
theorem unpack_pack_finite (s : Sign) (hm : 0 < m) (he : fitting m e = e) :
    (Float.Model.pack (.finite s m e hm)).unpack =
      if e ≤ 971 then .finite s m e hm else .infinity s := by
  rw [fitting_eq] at he
  obtain ⟨w, hw⟩ : ∃ w : ℕ, (e + 1075).toNat = w := ⟨_, rfl⟩
  show UnpackedFloat.unpack .binary64 (UnpackedFloat.pack .binary64 (.finite s m e hm)) = _
  rw [pack_finite s hm hw]
  by_cases hlarge : e ≤ 971
  · rw [if_pos hlarge, if_neg (by omega)]
    by_cases hnormal : m.log2 + 1 = 53
    · rw [if_pos hnormal]
      -- The leading digit is not written, and read again because the exponent is not zero.
      have hw' : (BitVec.ofNat 11 w).toNat = w := Nat.mod_eq_of_lt (by omega)
      have hmantissa : (1#1 ++ BitVec.ofNat 52 m).toNat = m := by
        have hbounds := (Nat.log2_eq_iff (k := 52) hm.ne').1 (by omega)
        rw [toNat_implicit_append, BitVec.toNat_ofNat]
        omega
      have hzero : BitVec.ofNat 11 w ≠ 0 := fun h => by
        have hw0 : w = 0 := by rw [← hw', h]; rfl
        omega
      have hones : BitVec.ofNat 11 w ≠ -1 := fun h => by
        have hw0 : w = 2047 := by rw [← hw', h]; rfl
        omega
      rw [unpack_packComponents, if_neg hones, if_neg hzero]
      exact finite_congr hmantissa (by omega)
    · rw [if_neg hnormal]
      have hlt : m < 2 ^ 52 := (Nat.log2_lt hm.ne').1 (by omega)
      have hmod : (BitVec.ofNat 52 m).toNat = m := Nat.mod_eq_of_lt hlt
      have hmantissa : BitVec.ofNat 52 m ≠ 0 := fun h => by
        have hm0 : m = 0 := by rw [← hmod, h]; rfl
        omega
      have hzero : 0#11 = 0 := rfl
      rw [unpack_packComponents, if_neg (by decide), if_pos hzero, dif_neg hmantissa]
      exact finite_congr hmod (by omega)
  · rw [if_neg hlarge, if_pos (by omega)]
    exact unpack_pack_infinity s

theorem unpack_pack {u : UnpackedFloat} (hu : IsUnpacked u) : (Float.Model.pack u).unpack = u := by
  cases u with
  | infinity s => exact unpack_pack_infinity s
  | notANumber => rfl
  | zero s => cases s <;> rfl
  | finite s m e hm => exact (unpack_pack_finite s hm hu.1).trans (if_pos hu.2)

theorem pack_subnormal (s : Sign) {v : BitVec 52} (hv : 0 < v.toNat) :
    UnpackedFloat.pack .binary64 (.finite s v.toNat (-1074) hv) =
      packComponents .binary64 s 0#11 v := by
  have hlog : v.toNat.log2 < 52 := (Nat.log2_lt hv.ne').2 v.isLt
  rw [pack_finite s hv rfl, if_neg (by decide), if_neg (by omega), BitVec.ofNat_toNat,
    BitVec.setWidth_eq]

theorem pack_normal (s : Sign) (v : BitVec 52) {w : BitVec 11} (hones : w ≠ -1)
    (hpos : 0 < (1#1 ++ v).toNat) :
    UnpackedFloat.pack .binary64 (.finite s (1#1 ++ v).toNat (w.toNat - 1075) hpos) =
      packComponents .binary64 s w v := by
  have hlt := w.isLt
  have hones' : w.toNat ≠ 2047 := fun h => hones (BitVec.eq_of_toNat_eq h)
  have hmantissa : BitVec.ofNat 52 (1#1 ++ v).toNat = v := by
    rw [BitVec.ofNat_toNat, BitVec.setWidth_append]
    simp
  rw [pack_finite (w := w.toNat) s hpos (by omega), if_neg (by omega), log2_implicit_append,
    if_pos rfl, hmantissa, BitVec.ofNat_toNat, BitVec.setWidth_eq]

theorem eq_of_toBits_eq {x y : Float.Model} (h : x.toBits = y.toBits) : x = y := by
  cases x
  cases y
  cases h
  rfl

/-- Unpacking loses nothing, since there is only one double that is not a number. -/
theorem pack_unpack (x : Float.Model) : Float.Model.pack x.unpack = x := by
  obtain ⟨⟨b : BitVec Format.binary64.numBits⟩, hvalid⟩ := x
  have hb := packComponents_unpack b
  have hpack : UnpackedFloat.pack .binary64 (UnpackedFloat.unpack .binary64 b) = b := by
    refine unpack_cases (motive := fun u => UnpackedFloat.pack .binary64 u = b) b rfl
      (fun hones hmantissa => ?_) (fun hones hmantissa => ?_) (fun hzero hmantissa => ?_)
      (fun hzero hpos => ?_) fun hones hzero hpos => ?_
    · rw [hones, hmantissa] at hb
      exact hb
    · exact (hvalid.eq_packedNaN hones hmantissa).symm
    · rw [hzero, hmantissa] at hb
      exact hb
    · rw [hzero] at hb
      exact (pack_subnormal _ hpos).trans hb
    · exact (pack_normal _ _ hones hpos).trans hb
  exact eq_of_toBits_eq (congrArg UInt64.ofBitVec hpack)

end Double

end Reckon
