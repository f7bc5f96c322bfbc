import Reckon.Proofs.Comparison

/-!
# Zeros of either sign

There are two doubles that are equal to zero, and apart from them equal doubles are the same. What
is computed from equal operands is therefore equal again, unless an operation tells the zeros apart.
Of the operators two can: a quotient is infinite with the sign of a divisor that is zero, and a
power of zero may be. All others give equal results, or no number in both cases.

## Main definitions

* `Double.SameNumber` — equal as numbers, or neither of them a number.
* `Double.OppositeZeros` — the two zeros.

## Main statements

* `Double.SameNumber.eq_or` — the same number is the same double or a zero.
* `Double.SameNumber.apply` — operators other than quotients and powers do not tell zeros apart.
* `Double.sameNumber_div_iff` — when a quotient does.
-/

namespace Reckon

namespace Double

open Float.Model (UnpackedFloat)
open Float.Model.UnpackedFloat (Sign)

variable {x x' y y' : Float}

/-- Two doubles are equal as numbers, or neither of them is a number. -/
def SameNumber (x y : Float) : Prop := x == y ∨ x.isNaN ∧ y.isNaN

instance (x y : Float) : Decidable (SameNumber x y) := inferInstanceAs (Decidable (_ ∨ _))

/-- Two doubles are zeros, one of either sign. -/
def OppositeZeros (x y : Float) : Prop := x == 0 ∧ y == 0 ∧ x ≠ y

instance (x y : Float) : Decidable (OppositeZeros x y) := inferInstanceAs (Decidable (_ ∧ _))

/-! ### Unpacked numbers -/

/-- Unpacked numbers that differ in the sign of a zero, if at all. -/
inductive Alike : UnpackedFloat → UnpackedFloat → Prop
  | refl (u) : Alike u u
  | zero (s s') : Alike (.zero s) (.zero s')

theorem toModel_unpack_inj (h : x.toModel.unpack = y.toModel.unpack) : x = y := by
  have hmodel : x.toModel = y.toModel := by rw [← pack_unpack x.toModel, h, pack_unpack]
  cases x
  cases hmodel
  rfl

theorem unpack_zero : (0 : Float).toModel.unpack = .zero .positive := rfl

theorem beq_zero_iff : x == 0 ↔ ∃ s, x.toModel.unpack = .zero s := by
  show x.toModel.unpack.beq _ ↔ _
  rw [unpack_zero]
  cases x.toModel.unpack with
  | zero s => exact iff_of_true rfl ⟨s, rfl⟩
  | infinity s | finite s =>
    refine iff_of_false (by cases s <;> exact Bool.false_ne_true) ?_
    rintro ⟨_, ⟨⟩⟩
  | notANumber =>
    refine iff_of_false Bool.false_ne_true ?_
    rintro ⟨_, ⟨⟩⟩

theorem isNaN_iff : x.isNaN ↔ x.toModel.unpack = .notANumber := by
  show x.toModel.unpack.isNaN ↔ _
  cases x.toModel.unpack with
  | notANumber => exact iff_of_true rfl rfl
  | _ =>
    refine iff_of_false Bool.false_ne_true ?_
    rintro ⟨⟩

theorem beq_self {u : UnpackedFloat} (hu : u ≠ .notANumber) : u.beq u := by
  cases u with
  | notANumber => exact absurd rfl hu
  | zero s | infinity s => cases s <;> rfl
  | finite s m e hm => exact (beq_finite_iff hm hm).2 ⟨rfl, rfl, rfl⟩

theorem Alike.of_beq {u v : UnpackedFloat} (h : u.beq v) : Alike u v := by
  cases u with
  | notANumber => cases h
  | zero s =>
    cases v with
    | zero s' => exact .zero s s'
    | finite s' n e' hn =>
      rw [beq_zero_finite hn] at h
      cases h
    | infinity s' => cases s' <;> cases h
    | notANumber => cases h
  | infinity s =>
    cases v with
    | infinity s' => cases s <;> cases s' <;> first | exact .refl _ | cases h
    | _ => cases s <;> cases h
  | finite s m e hm =>
    cases v with
    | zero s' =>
      rw [beq_finite_zero hm] at h
      cases h
    | finite s' n e' hn =>
      obtain ⟨rfl, rfl, rfl⟩ := (beq_finite_iff hm hn).1 h
      exact .refl _
    | infinity s' => cases s <;> cases s' <;> cases h
    | notANumber => cases s <;> cases h

/-- The same numbers are unpacked alike. -/
theorem sameNumber_iff : SameNumber x y ↔ Alike x.toModel.unpack y.toModel.unpack := by
  rw [SameNumber, isNaN_iff, isNaN_iff]
  show (x.toModel.unpack.beq y.toModel.unpack ∨ _) ↔ _
  generalize x.toModel.unpack = u
  generalize y.toModel.unpack = v
  constructor
  · rintro (h | ⟨rfl, rfl⟩)
    · exact .of_beq h
    · exact .refl _
  · intro h
    cases h with
    | refl =>
      by_cases hu : u = .notANumber
      · exact .inr ⟨hu, hu⟩
      · exact .inl (beq_self hu)
    | zero s s' => exact .inl rfl

@[refl] theorem SameNumber.refl (x : Float) : SameNumber x x := sameNumber_iff.2 (.refl _)

/-- The same number is the same double, or else both are zero. -/
theorem SameNumber.eq_or (h : SameNumber x y) : x = y ∨ x == 0 ∧ y == 0 := by
  rw [sameNumber_iff] at h
  rw [beq_zero_iff, beq_zero_iff]
  generalize hu : x.toModel.unpack = u at h
  generalize hv : y.toModel.unpack = v at h
  cases h with
  | refl => exact .inl (toModel_unpack_inj (hu.trans hv.symm))
  | zero s s' => exact .inr ⟨⟨s, rfl⟩, s', rfl⟩

/-- What is unpacked alike is alike also when it is packed. -/
theorem Alike.pack {u v : UnpackedFloat} (h : Alike u v) :
    SameNumber (.ofModel (.pack u)) (.ofModel (.pack v)) := by
  cases h with
  | refl => rfl
  | zero s s' =>
    have hzero (s : Sign) : (Float.Model.pack (.zero s)).unpack = .zero s :=
      unpack_pack (u := .zero s) trivial
    rw [sameNumber_iff]
    show Alike (Float.Model.pack (.zero s)).unpack (Float.Model.pack (.zero s')).unpack
    rw [hzero, hzero]
    exact .zero s s'

namespace Alike

variable {f : Float.Model.Format} {u u' v v' w : UnpackedFloat}

theorem symm (h : Alike u v) : Alike v u := by
  cases h with
  | refl => exact .refl u
  | zero s s' => exact .zero s' s

theorem trans (h : Alike u v) (h' : Alike v w) : Alike u w := by
  cases h with
  | refl => exact h'
  | zero s s' =>
    cases h' with
    | refl => exact .zero s s'
    | zero s' s'' => exact .zero s s''

theorem equivalence : Equivalence Alike := ⟨.refl, symm, trans⟩

/-- What does not tell zeros apart on either side does not tell operands apart that are alike. -/
theorem binary {γ : Type} {R : γ → γ → Prop} {g : UnpackedFloat → UnpackedFloat → γ}
    (hR : Equivalence R) (hleft : ∀ s s' v, R (g (.zero s) v) (g (.zero s') v))
    (hright : ∀ u s s', R (g u (.zero s)) (g u (.zero s'))) (hu : Alike u u')
    (hv : Alike v v') : R (g u v) (g u' v') := by
  have hl : R (g u v) (g u' v) := by
    cases hu with
    | refl => exact hR.refl _
    | zero s s' => exact hleft s s' v
  have hr : R (g u' v) (g u' v') := by
    cases hv with
    | refl => exact hR.refl _
    | zero s s' => exact hright u' s s'
  exact hR.trans hl hr

theorem add (hu : Alike u u') (hv : Alike v v') : Alike (u.add f v) (u'.add f v') := by
  refine binary equivalence (fun s s' v => ?_) (fun u s s' => ?_) hu hv
  · cases v with
    | zero t => cases s <;> cases s' <;> cases t <;> exact .zero _ _
    | _ => exact .refl _
  · cases u with
    | zero t => cases s <;> cases s' <;> cases t <;> exact .zero _ _
    | _ => exact .refl _

theorem sub (hu : Alike u u') (hv : Alike v v') : Alike (u.sub f v) (u'.sub f v') := by
  refine binary equivalence (fun s s' v => ?_) (fun u s s' => ?_) hu hv
  · cases v with
    | zero t => cases s <;> cases s' <;> cases t <;> exact .zero _ _
    | _ => exact .refl _
  · cases u with
    | zero t => cases s <;> cases s' <;> cases t <;> exact .zero _ _
    | _ => exact .refl _

theorem mul (hu : Alike u u') (hv : Alike v v') : Alike (u.mul f v) (u'.mul f v') := by
  refine binary equivalence (fun s s' v => ?_) (fun u s s' => ?_) hu hv
  · cases v with
    | zero | finite => exact .zero _ _
    | _ => exact .refl _
  · cases u with
    | zero | finite => exact .zero _ _
    | _ => exact .refl _

/-- A quotient does not see the sign of a dividend that is zero. -/
theorem div (hu : Alike u u') (v : UnpackedFloat) : Alike (u.div f v) (u'.div f v) := by
  cases hu with
  | refl => exact .refl _
  | zero s s' =>
    cases v with
    | infinity | finite => exact .zero _ _
    | _ => exact .refl _

/-- Comparisons see no sign of a zero. -/
theorem lt_eq (hu : Alike u u') (hv : Alike v v') : u.lt v = u'.lt v' := by
  refine binary eq_equivalence (fun s s' v => ?_) (fun u s s' => ?_) hu hv
  · cases v with
    | infinity t | finite t => cases t <;> rfl
    | _ => rfl
  · cases u with
    | infinity t | finite t => cases t <;> rfl
    | _ => rfl

theorem abs_eq (h : Alike u u') : u.abs = u'.abs := by
  cases h <;> rfl

theorem isNaN_eq (h : Alike u u') : u.isNaN = u'.isNaN := by
  cases h <;> rfl

end Alike

/-! ### Remainders of zeros -/

/-- The two zeros are the only numbers that are equal to zero. -/
theorem eq_zero_or (h : x == 0) : x = 0 ∨ x = -0 := by
  obtain ⟨s, hs⟩ := beq_zero_iff.1 h
  cases s with
  | positive => exact .inl (toModel_unpack_inj (hs.trans unpack_zero.symm))
  | negative => exact .inr (toModel_unpack_inj hs)

/-- The sign of the remainder of a zero is that of the zero. -/
theorem remainder_zero (y : Float) : SameNumber (remainder 0 y) (remainder (-0) y) := by
  have hpositive : Binary.ofFloat? 0 = some ⟨false, 0, -1074⟩ := by decide +kernel
  have hnegative : Binary.ofFloat? (-0) = some ⟨true, 0, -1074⟩ := by decide +kernel
  unfold remainder
  rw [hpositive, hnegative]
  cases Binary.ofFloat? y with
  | none =>
    dsimp only
    split
    · rfl
    · decide +kernel
  | some b =>
    dsimp only
    split
    · rfl
    · have hzero (negative : Bool) (e : ℤ) : (Binary.remainder ⟨negative, 0, e⟩ b).toFloat =
          Float.ofBits (UInt64.ofNat (0 + if negative then Binary.signBit else 0)) := by
        simp [Binary.remainder, Binary.toFloat]
      rw [hzero false, hzero true]
      decide +kernel

theorem remainder_by_zero (x : Float) : remainder x 0 = remainder x (-0) := by
  have hpositive : Binary.ofFloat? 0 = some ⟨false, 0, -1074⟩ := by decide +kernel
  have hnegative : Binary.ofFloat? (-0) = some ⟨true, 0, -1074⟩ := by decide +kernel
  unfold remainder
  rw [hpositive, hnegative]
  cases Binary.ofFloat? x <;> rfl

/-! ### Operators -/

namespace SameNumber

theorem symm (h : SameNumber x y) : SameNumber y x := sameNumber_iff.2 (sameNumber_iff.1 h).symm

theorem trans {z : Float} (h : SameNumber x y) (h' : SameNumber y z) : SameNumber x z :=
  sameNumber_iff.2 ((sameNumber_iff.1 h).trans (sameNumber_iff.1 h'))

/-- The same number is the same double, or else they are the two zeros. -/
theorem eq_or_zeros (h : SameNumber x y) : x = y ∨ x = 0 ∧ y = -0 ∨ x = -0 ∧ y = 0 := by
  rcases h.eq_or with h | ⟨h, h'⟩
  · exact .inl h
  · rcases eq_zero_or h with rfl | rfl <;> rcases eq_zero_or h' with rfl | rfl <;> simp

theorem add (hx : SameNumber x x') (hy : SameNumber y y') : SameNumber (x + y) (x' + y') :=
  ((sameNumber_iff.1 hx).add (sameNumber_iff.1 hy)).pack

theorem sub (hx : SameNumber x x') (hy : SameNumber y y') : SameNumber (x - y) (x' - y') :=
  ((sameNumber_iff.1 hx).sub (sameNumber_iff.1 hy)).pack

theorem mul (hx : SameNumber x x') (hy : SameNumber y y') : SameNumber (x * y) (x' * y') :=
  ((sameNumber_iff.1 hx).mul (sameNumber_iff.1 hy)).pack

theorem isNaN_eq (h : SameNumber x x') : x.isNaN = x'.isNaN := (sameNumber_iff.1 h).isNaN_eq

theorem abs_eq (h : SameNumber x x') : x.abs = x'.abs := by
  refine toModel_unpack_inj ?_
  rw [unpack_abs, unpack_abs, (sameNumber_iff.1 h).abs_eq]

theorem lt_iff (hx : SameNumber x x') (hy : SameNumber y y') : x < y ↔ x' < y' := by
  rw [lt_iff_lt_unpack, lt_iff_lt_unpack, (sameNumber_iff.1 hx).lt_eq (sameNumber_iff.1 hy)]

theorem isTruthy_eq (h : SameNumber x x') : isTruthy x = isTruthy x' := by
  rw [isTruthy, isTruthy, h.abs_eq]

theorem nearlyEqual_eq (hx : SameNumber x x') (hy : SameNumber y y') :
    nearlyEqual x y = nearlyEqual x' y' := by
  rw [nearlyEqual, nearlyEqual, (hx.sub hy).abs_eq]

theorem remainder (hx : SameNumber x x') (hy : SameNumber y y') :
    SameNumber (remainder x y) (remainder x' y') := by
  have hleft : SameNumber (Reckon.remainder x y) (Reckon.remainder x' y) := by
    rcases hx.eq_or_zeros with rfl | ⟨rfl, rfl⟩ | ⟨rfl, rfl⟩
    · rfl
    · exact remainder_zero y
    · exact (remainder_zero y).symm
  have hright : Reckon.remainder x' y = Reckon.remainder x' y' := by
    rcases hy.eq_or_zeros with rfl | ⟨rfl, rfl⟩ | ⟨rfl, rfl⟩
    · rfl
    · exact remainder_by_zero x'
    · exact (remainder_by_zero x').symm
  rwa [hright] at hleft

/-- An operator that is neither a quotient nor a power does not tell zeros apart. -/
theorem apply {op : Operator} (hdiv : op ≠ .divide) (hpow : op ≠ .power) (hx : SameNumber x x')
    (hy : SameNumber y y') : SameNumber (apply op x y) (apply op x' y') := by
  cases op with
  | add => exact hx.add hy
  | subtract => exact hx.sub hy
  | multiply => exact hx.mul hy
  | divide => exact absurd rfl hdiv
  | modulo => exact hx.remainder hy
  | power => exact absurd rfl hpow
  | lessThan => simp only [Double.apply, hx.lt_iff hy]; rfl
  | lessEqual => simp only [Double.apply, hx.lt_iff hy, hx.nearlyEqual_eq hy]; rfl
  | greaterThan => simp only [Double.apply, gt_iff_lt, hy.lt_iff hx]; rfl
  | greaterEqual => simp only [Double.apply, gt_iff_lt, hy.lt_iff hx, hx.nearlyEqual_eq hy]; rfl
  | equal => simp only [Double.apply, hx.nearlyEqual_eq hy]; rfl
  | notEqual => simp only [Double.apply, (hx.sub hy).abs_eq]; rfl
  | and | or => simp only [Double.apply, hx.isTruthy_eq, hy.isTruthy_eq]; rfl

end SameNumber

theorem unpack_div (x y : Float) : (x / y).toModel.unpack =
    (Float.Model.pack (.div .binary64 x.toModel.unpack y.toModel.unpack)).unpack :=
  rfl

/-- A quotient by zero is infinite, and its sign that of both operands. -/
theorem sameNumber_div_zeros_iff {s s' : Sign} (hy : y.toModel.unpack = .zero s)
    (hy' : y'.toModel.unpack = .zero s') (hne : s ≠ s') :
    SameNumber (x / y) (x / y') ↔ x == 0 ∨ x.isNaN := by
  have hinfinity (t t' : Sign) (h : t ≠ t') : ¬Alike (.infinity t) (.infinity t') := by
    intro halike
    cases halike
    exact h rfl
  have hsign (t : Sign) : t / s ≠ t / s' := by
    cases t <;> cases s <;> cases s' <;> first | exact absurd rfl hne | exact Sign.noConfusion
  rw [sameNumber_iff, unpack_div, unpack_div, hy, hy', beq_zero_iff, isNaN_iff]
  cases x.toModel.unpack with
  | notANumber => exact iff_of_true (.refl _) (.inr rfl)
  | zero t => exact iff_of_true (.refl _) (.inl ⟨t, rfl⟩)
  | infinity t | finite t =>
    refine iff_of_false ?_ ?_
    · show ¬Alike (Float.Model.pack (.infinity (t / s))).unpack
        (Float.Model.pack (.infinity (t / s'))).unpack
      rw [unpack_pack_infinity, unpack_pack_infinity]
      exact hinfinity _ _ (hsign t)
    · rintro (⟨_, h⟩ | h) <;> cases h

/-- Quotients of the same numbers are the same, unless they are quotients of a number other than
zero by the two zeros. -/
theorem sameNumber_div_iff (hx : SameNumber x x') (hy : SameNumber y y') :
    SameNumber (x / y) (x' / y') ↔ ¬(OppositeZeros y y' ∧ ¬x == 0 ∧ x.isNaN = false) := by
  have hdiv (y : Float) : SameNumber (x / y) (x' / y) :=
    ((sameNumber_iff.1 hx).div y.toModel.unpack).pack
  have hiff : SameNumber (x / y) (x' / y') ↔ SameNumber (x / y) (x / y') :=
    ⟨fun h => h.trans (hdiv y').symm, fun h => h.trans (hdiv y')⟩
  rw [hiff]
  by_cases hopposite : OppositeZeros y y'
  · obtain ⟨hzero, hzero', hne⟩ := hopposite
    obtain ⟨s, hs⟩ := beq_zero_iff.1 hzero
    obtain ⟨s', hs'⟩ := beq_zero_iff.1 hzero'
    have hsign : s ≠ s' := by
      rintro rfl
      exact hne (toModel_unpack_inj (hs.trans hs'.symm))
    rw [sameNumber_div_zeros_iff hs hs' hsign, ← Bool.not_eq_true x.isNaN, ← not_or,
      and_iff_right ⟨hzero, hzero', hne⟩, not_not]
  · refine iff_of_true ?_ fun h => hopposite h.1
    rcases hy.eq_or with rfl | ⟨hzero, hzero'⟩
    · rfl
    · by_cases hne : y = y'
      · rw [hne]
      · exact absurd ⟨hzero, hzero', hne⟩ hopposite

end Double

end Reckon
