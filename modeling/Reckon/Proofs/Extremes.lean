import Reckon.Builtins
import Reckon.Proofs.Folding
import Reckon.Proofs.Zeros
import Mathlib.Data.Int.ConditionallyCompleteOrder
import Mathlib.Order.ConditionallyCompleteLattice.Basic

/-!
# The smallest and the largest argument

The functions `min` and `max` go through the values of all their arguments, start from an infinity
and leave out what is not a number. Doubles that are numbers are ordered as the places are where
they lie, so that what is picked bounds everything that has been gone through. If none of the values
is a number, it is the infinity that is picked, and this is not one of them.

## Main definitions

* `Double.place` — where a number lies among all numbers.
* `Double.Picks` — which of two numbers is picked.
* `Double.Picked` — what has been picked of some numbers.

## Main statements

* `Double.lt_iff_place_lt`, `Double.le_iff_place_le` — the order of doubles is that of places.
* `Double.Picks.picked_foldl` — what is picked by going through some numbers.
* `Builtins.outcome_extremes` — when `min` and `max` give one of the values, which bounds them all.
* `Calculator.evaluate_extremes_of_nan` — the extremes of an undefined value.
-/

namespace Reckon

namespace Double

open Float.Model (UnpackedFloat)
open Float.Model.UnpackedFloat (Sign)

variable {m n : ℕ} {e e' : ℤ} {x y z : Float}

/-! ### Places of numbers -/

/-- Where an unpacked number lies: the exact value in units, or beyond all values. -/
def extent : UnpackedFloat → WithBot (WithTop ℤ)
  | .infinity .negative => ⊥
  | .infinity .positive => (⊤ : WithTop ℤ)
  | u => (unpackedUnits u : WithTop ℤ)

/-- If the exponents fit, a larger exponent belongs to a larger value. -/
theorem scaled_lt_of_lt (hm : 0 < m) (hn : 0 < n) (he : fitting m e = e) (he' : fitting n e' = e')
    (h : e < e') : scaled m e < scaled n e' := by
  rw [fitting_eq] at he he'
  have hlog := log2_scaled (e := e) hm (by omega)
  have hlog' := log2_scaled (e := e') hn (by omega)
  by_contra hle
  have hmono : (scaled n e').log2 ≤ (scaled m e).log2 := by
    rw [Nat.log2_eq_log_two, Nat.log2_eq_log_two]
    exact Nat.log_mono_right (by omega)
  omega

theorem scaled_lt_iff (hm : 0 < m) (hn : 0 < n) (he : fitting m e = e) (he' : fitting n e' = e') :
    scaled m e < scaled n e' ↔ e < e' ∨ e = e' ∧ m < n := by
  rcases lt_trichotomy e e' with hlt | rfl | hgt
  · exact iff_of_true (scaled_lt_of_lt hm hn he he' hlt) (.inl hlt)
  · rw [scaled, scaled, Nat.mul_lt_mul_right (by positivity)]
    simp
  · have hlt := scaled_lt_of_lt hn hm he' he hgt
    omega

theorem lt_finite_negative_iff (hm : 0 < m) (hn : 0 < n) :
    (UnpackedFloat.finite .negative m e hm).lt (.finite .negative n e' hn) ↔
      e' < e ∨ e' = e ∧ n < m := by
  show (some ((compare e e').then (compare m n)).swap == some .lt) = true ↔ _
  rw [beq_iff_eq, Option.some_inj, swap_then_compare, Ordering.then_eq_lt, Int.compare_eq_lt,
    Int.compare_eq_eq, Nat.compare_eq_lt]

/-- One finite number is less than another if its exact value is. -/
theorem lt_iff_unpackedUnits_lt {u v : UnpackedFloat} (hu : IsUnpacked u) (hv : IsUnpacked v)
    (hfu : u.isFinite) (hfv : v.isFinite) : u.lt v ↔ unpackedUnits u < unpackedUnits v := by
  cases u with
  | infinity => cases hfu
  | notANumber => cases hfu
  | zero s =>
    cases v with
    | infinity => cases hfv
    | notANumber => cases hfv
    | zero s' => exact iff_of_false Bool.false_ne_true (lt_irrefl 0)
    | finite s' n e' hn =>
      have hpos : 0 < scaled n e' := scaled_pos hn
      rw [unpackedUnits_zero, unpackedUnits_finite]
      cases s' with
      | negative => exact iff_of_false Bool.false_ne_true (by simp [Sign.apply])
      | positive => exact iff_of_true rfl (by simpa [Sign.apply] using hpos)
  | finite s m e hm =>
    have hpos : 0 < scaled m e := scaled_pos hm
    cases v with
    | infinity => cases hfv
    | notANumber => cases hfv
    | zero s' =>
      rw [unpackedUnits_zero, unpackedUnits_finite]
      cases s with
      | negative => exact iff_of_true rfl (by simpa [Sign.apply] using hpos)
      | positive => exact iff_of_false Bool.false_ne_true (by simp [Sign.apply])
    | finite s' n e' hn =>
      have hpos' : 0 < scaled n e' := scaled_pos hn
      rw [unpackedUnits_finite, unpackedUnits_finite]
      cases s <;> cases s' <;> dsimp only [Sign.apply]
      · rw [lt_finite_negative_iff, ← scaled_lt_iff hn hm hv.1 hu.1]
        omega
      · exact iff_of_true rfl (by omega)
      · exact iff_of_false Bool.false_ne_true (by omega)
      · rw [lt_finite_positive_iff, ← scaled_lt_iff hm hn hu.1 hv.1]
        omega

/-- The order of numbers is that of where they lie. -/
theorem lt_iff_extent_lt {u v : UnpackedFloat} (hu : IsUnpacked u) (hv : IsUnpacked v)
    (hnu : u.isNaN = false) (hnv : v.isNaN = false) : u.lt v ↔ extent u < extent v := by
  have hcoe (a b : ℤ) : ((a : WithTop ℤ) : WithBot (WithTop ℤ)) < (b : WithTop ℤ) ↔ a < b := by
    rw [WithBot.coe_lt_coe, WithTop.coe_lt_coe]
  have hbot (a : WithTop ℤ) : (⊥ : WithBot (WithTop ℤ)) < a := WithBot.bot_lt_coe a
  have htop (a : ℤ) : ((a : WithTop ℤ) : WithBot (WithTop ℤ)) < (⊤ : WithTop ℤ) := by
    rw [WithBot.coe_lt_coe]
    exact WithTop.coe_lt_top a
  cases u with
  | notANumber => cases hnu
  | infinity s =>
    cases v with
    | notANumber => cases hnv
    | infinity s' =>
      cases s <;> cases s'
      · exact iff_of_false Bool.false_ne_true (lt_irrefl _)
      · exact iff_of_true rfl (hbot _)
      · exact iff_of_false Bool.false_ne_true (hbot _).not_gt
      · exact iff_of_false Bool.false_ne_true (lt_irrefl _)
    | zero | finite =>
      cases s
      · exact iff_of_true rfl (hbot _)
      · exact iff_of_false Bool.false_ne_true (htop _).not_gt
  | zero s | finite s =>
    cases v with
    | notANumber => cases hnv
    | infinity s' =>
      cases s'
      · exact iff_of_false (by cases s <;> exact Bool.false_ne_true) (hbot _).not_gt
      · exact iff_of_true (by cases s <;> rfl) (htop _)
    | zero | finite => exact (lt_iff_unpackedUnits_lt hu hv rfl rfl).trans (hcoe _ _).symm

/-- Where a number lies among all numbers. -/
def place (x : Float) : WithBot (WithTop ℤ) := extent x.toModel.unpack

theorem lt_iff_place_lt (hx : x.isNaN = false) (hy : y.isNaN = false) :
    x < y ↔ place x < place y := by
  rw [lt_iff_lt_unpack]
  exact lt_iff_extent_lt (isUnpacked_unpack _) (isUnpacked_unpack _) hx hy

theorem beq_iff_place_eq (hx : x.isNaN = false) (hy : y.isNaN = false) :
    x == y ↔ place x = place y := by
  obtain ⟨o, hlt, heq, hgt⟩ := exists_ordering hx hy
  rw [lt_iff_place_lt hx hy] at hlt
  rw [lt_iff_place_lt hy hx] at hgt
  rw [heq]
  rcases lt_trichotomy (place x) (place y) with h | h | h
  · rw [hlt.1 h]
    exact iff_of_false Ordering.noConfusion h.ne
  · cases o with
    | lt => exact absurd h (hlt.2 rfl).ne
    | eq => exact iff_of_true rfl h
    | gt => exact absurd h (hgt.2 rfl).ne'
  · rw [hgt.1 h]
    exact iff_of_false Ordering.noConfusion h.ne'

theorem le_iff_place_le (hx : x.isNaN = false) (hy : y.isNaN = false) :
    x ≤ y ↔ place x ≤ place y := by
  obtain ⟨o, h, h'⟩ := exists_compare (u := x.toModel.unpack) (v := y.toModel.unpack) hx hy
  rw [← not_lt, ← lt_iff_place_lt hy hx, lt_iff_lt_unpack, UnpackedFloat.lt, h']
  show decide (x.toModel ≤ y.toModel) = true ↔ _
  rw [decide_eq_true_iff]
  show x.toModel.unpack.le y.toModel.unpack ↔ _
  rw [UnpackedFloat.le, h]
  cases o <;> decide

/-! ### Picking numbers -/

/-- Of two numbers the one with the smaller key is picked, and any number rather than none. -/
structure Picks {κ : Type} [LinearOrder κ] (key : Float → κ) (pick : Float → Float → Float) :
    Prop where
  beq_of_key_eq {x y : Float} : x.isNaN = false → y.isNaN = false → key x = key y → x == y
  of_isNaN_right {x y : Float} : x.isNaN = false → y.isNaN → pick x y = x
  of_le {x y : Float} : x.isNaN = false → y.isNaN = false → ¬key y < key x → pick x y = x
  of_lt {x y : Float} : x.isNaN = false → y.isNaN = false → key y < key x → pick x y = y

/-- What has been picked of a first number and some more. -/
structure Picked {κ : Type} [LinearOrder κ] (key : Float → κ) (seed : Float) (xs : List Float)
    (m : Float) : Prop where
  isNaN_eq : m.isNaN = false
  eq_or_mem : m = seed ∨ m ∈ xs
  le_seed : key m ≤ key seed
  le : ∀ x ∈ xs, x.isNaN = false → key m ≤ key x

section Picks

variable {κ : Type} [LinearOrder κ] {key : Float → κ} {pick : Float → Float → Float} {seed : Float}
  {xs : List Float}

/-- One more number is taken into account. -/
theorem Picks.picked_pair (h : Picks key pick) (hx : x.isNaN = false) (y : Float) :
    Picked key x [y] (pick x y) := by
  by_cases hy : y.isNaN
  · rw [h.of_isNaN_right hx hy]
    refine ⟨hx, .inl rfl, le_rfl, fun z hz hproper => ?_⟩
    rw [List.mem_singleton.1 hz, hy] at hproper
    cases hproper
  · have hy : y.isNaN = false := Bool.eq_false_iff.2 hy
    by_cases hlt : key y < key x
    · rw [h.of_lt hx hy hlt]
      refine ⟨hy, .inr (List.mem_singleton_self y), hlt.le, fun z hz _ => ?_⟩
      rw [List.mem_singleton.1 hz]
    · rw [h.of_le hx hy hlt]
      refine ⟨hx, .inl rfl, le_rfl, fun z hz _ => ?_⟩
      rw [List.mem_singleton.1 hz]
      exact not_lt.1 hlt

theorem Picks.picked_foldl (h : Picks key pick) (hseed : seed.isNaN = false) (xs : List Float) :
    Picked key seed xs (xs.foldl pick seed) := by
  induction xs generalizing seed with
  | nil => exact ⟨hseed, .inl rfl, le_rfl, fun x hx => absurd hx List.not_mem_nil⟩
  | cons x xs ih =>
    have hfirst := h.picked_pair hseed x
    have hrest := ih hfirst.isNaN_eq
    refine ⟨hrest.isNaN_eq, ?_, hrest.le_seed.trans hfirst.le_seed, fun y hy hproper => ?_⟩
    · rcases hrest.eq_or_mem with heq | hmem
      · rw [List.foldl_cons, heq]
        exact hfirst.eq_or_mem.imp_right fun hmem => by
          rw [List.mem_singleton.1 hmem]
          exact List.mem_cons_self
      · exact .inr (List.mem_cons_of_mem x hmem)
    · rcases List.mem_cons.1 hy with rfl | hmem
      · exact hrest.le_seed.trans (hfirst.le y (List.mem_singleton_self y) hproper)
      · exact hrest.le y hmem hproper

/-- If no number lies beyond the first one, then what is picked is one of the others, unless none of
them is a number. -/
theorem Picks.exists_sameNumber_iff (h : Picks key pick) (hseed : seed.isNaN = false)
    (hlast : ∀ x, key x ≤ key seed) (xs : List Float) :
    (∃ x ∈ xs, SameNumber (xs.foldl pick seed) x) ↔ ∃ x ∈ xs, x.isNaN = false := by
  have hpicked := h.picked_foldl hseed xs
  constructor
  · rintro ⟨x, hx, hsame⟩
    exact ⟨x, hx, hsame.isNaN_eq.symm.trans hpicked.isNaN_eq⟩
  · rintro ⟨x, hx, hproper⟩
    rcases hpicked.eq_or_mem with heq | hmem
    · have hle := hpicked.le x hx hproper
      rw [heq] at hle ⊢
      exact ⟨x, hx, .inl (h.beq_of_key_eq hseed hproper (hle.antisymm (hlast x)))⟩
    · exact ⟨_, hmem, .refl _⟩

end Picks

theorem picks_smaller : Picks place Builtins.smaller where
  beq_of_key_eq hx hy h := (beq_iff_place_eq hx hy).2 h
  of_isNaN_right hx hy := by
    simp only [Builtins.smaller, hx, hy, Bool.false_eq_true, if_false, if_true]
  of_le hx hy h := by
    rw [← lt_iff_place_lt hy hx] at h
    simp only [Builtins.smaller, hx, hy, h, Bool.false_eq_true, if_false]
  of_lt hx hy h := by
    rw [← lt_iff_place_lt hy hx] at h
    simp only [Builtins.smaller, hx, hy, h, Bool.false_eq_true, if_false, if_true]

theorem picks_larger : Picks (fun x => OrderDual.toDual (place x)) Builtins.larger where
  beq_of_key_eq hx hy h := (beq_iff_place_eq hx hy).2 (OrderDual.toDual_inj.1 h)
  of_isNaN_right hx hy := by
    simp only [Builtins.larger, hx, hy, Bool.false_eq_true, if_false, if_true]
  of_le hx hy h := by
    rw [OrderDual.toDual_lt_toDual, ← lt_iff_place_lt hx hy] at h
    simp only [Builtins.larger, hx, hy, h, Bool.false_eq_true, if_false]
  of_lt hx hy h := by
    rw [OrderDual.toDual_lt_toDual, ← lt_iff_place_lt hx hy] at h
    simp only [Builtins.larger, hx, hy, h, Bool.false_eq_true, if_false, if_true]

end Double

open Double

/-! ### Functions of all their arguments -/

/-- If all values that are asked for are there, then the computation goes on with them. -/
theorem Demand.outcome_run_values {α : Type} {n : Nat} {is : List (Fin n)}
    {resume : List α → Demand α n} {time : α} {args : Fin n → Run α} {value : Fin n → α}
    (h : ∀ i, (args i).outcome = .ok (value i)) :
    ((values is resume).run time args).outcome =
      ((resume (is.map value)).run time args).outcome := by
  induction is generalizing resume with
  | nil => rfl
  | cons i is ih =>
    rw [values, outcome_run_value, h i]
    exact ih

/-- A function of all its arguments is called with their values. -/
theorem Builtins.outcome_call_variadic {name : String} {g : List Float → Except Error Float}
    {time : Float} {args : List (Run Float)} {xs : List Float}
    (h : args.map Run.outcome = xs.map .ok) :
    ((variadic name g).call time args).outcome = g xs := by
  have hlength : args.length = xs.length := by simpa using congrArg List.length h
  have hvalue (i : Fin args.length) : (args.get i).outcome = .ok xs[i] := by
    obtain ⟨x, hx, houtcome⟩ : ∃ x, xs[i.val]? = some x ∧ .ok x = args[i.val].outcome := by
      simpa using congrArg (fun l => l[i.val]?) h
    rw [List.get_eq_getElem, ← houtcome]
    exact congrArg Except.ok ((List.getElem_eq_iff _).2 hx).symm
  show (Function.entering _ (Demand.run time args.get
    (.values (List.finRange args.length) fun xs => .result (g xs)))).outcome = _
  rw [Function.outcome_entering, Demand.outcome_run_values hvalue]
  have hxs : (List.finRange args.length).map (fun i => xs[i]) = xs := by
    refine List.ext_getElem (by simp [hlength]) fun i hi hi' => ?_
    simp
  rw [hxs]
  rfl

/-! ### The standard functions -/

namespace Builtins

/-- The standard functions have different names. -/
theorem eq_of_name_eq {f g : Function Float} (hf : f ∈ functions) (hg : g ∈ functions)
    (h : f.name = g.name) : f = g := by
  have hnodup : (functions.map (·.name)).Nodup := by decide +kernel
  exact List.inj_on_of_nodup_map hnodup hf hg h

/-- What is picked of the values of all arguments, from an infinite number that is the last to be
picked. -/
theorem outcome_call_picks {κ : Type} [LinearOrder κ] {key : Float → κ}
    {pick : Float → Float → Float} {g : List Float → Float} {seed : Float} (name : String)
    {s : Store Float} {es : List (Expr Float)} {xs : List Float} (hpicks : Picks key pick)
    (hseed : seed.isNaN = false) (hlast : ∀ x, key x ≤ key seed)
    (hg : g xs = xs.foldl pick seed)
    (hes : es.map (fun e => (e.evaluate s).outcome) = xs.map .ok) :
    ∃ m, ((Expr.call (variadic name fun xs => .ok (g xs)) es).evaluate s).outcome = .ok m ∧
      m.isNaN = false ∧ ((∃ x ∈ xs, SameNumber m x) ↔ ∃ x ∈ xs, x.isNaN = false) ∧
      ((∀ x ∈ xs, x.isNaN) → m = seed) ∧ ∀ x ∈ xs, x.isNaN = false → key m ≤ key x := by
  have hpicked := hpicks.picked_foldl hseed xs
  refine ⟨xs.foldl pick seed, ?_, hpicked.isNaN_eq, hpicks.exists_sameNumber_iff hseed hlast xs,
    fun hnan => ?_, hpicked.le⟩
  · have hargs : (es.map (·.evaluate s)).map Run.outcome = xs.map .ok := by
      rw [List.map_map]
      exact hes
    rw [Expr.evaluate, Expr.evaluateAll_eq_map, outcome_call_variadic hargs, hg]
  · refine hpicked.eq_or_mem.resolve_right fun hmem => ?_
    have := hnan _ hmem
    rw [hpicked.isNaN_eq] at this
    cases this

theorem place_le_infinity (x : Float) : place x ≤ place (1 / 0) := by
  have hplace : place (1 / 0) = ((⊤ : WithTop ℤ) : WithBot (WithTop ℤ)) := rfl
  rw [hplace, WithBot.coe_top]
  exact le_top

theorem place_minus_infinity_le (x : Float) : place (-1 / 0) ≤ place x := by
  have hplace : place (-1 / 0) = ⊥ := rfl
  rw [hplace]
  exact bot_le

/-- The smallest and the largest of some values are among the values, and no value that is a number
is smaller or larger, if any of the values is a number. Otherwise they are infinities. -/
theorem outcome_extremes {s : Store Float} {es : List (Expr Float)} {xs : List Float}
    (hne : xs ≠ []) (hes : es.map (fun e => (e.evaluate s).outcome) = xs.map .ok) :
    (∀ f ∈ functions, f.name = "min" → ∃ m, ((Expr.call f es).evaluate s).outcome = .ok m ∧
        ((∃ x ∈ xs, SameNumber m x) ↔ ∃ x ∈ xs, x.isNaN = false) ∧
        ((∀ x ∈ xs, x.isNaN) → m = 1 / 0) ∧ ∀ x ∈ xs, x.isNaN = false → m ≤ x) ∧
      ∀ f ∈ functions, f.name = "max" → ∃ m, ((Expr.call f es).evaluate s).outcome = .ok m ∧
        ((∃ x ∈ xs, SameNumber m x) ↔ ∃ x ∈ xs, x.isNaN = false) ∧
        ((∀ x ∈ xs, x.isNaN) → m = -1 / 0) ∧ ∀ x ∈ xs, x.isNaN = false → x ≤ m := by
  have hempty : xs.isEmpty = false := by simpa using hne
  constructor
  · intro f hf hname
    obtain rfl := eq_of_name_eq (g := variadic "min" fun xs => .ok (minimum xs)) hf
      (by simp [functions]) hname
    have hg : minimum xs = xs.foldl smaller (1 / 0) := by rw [minimum, hempty]; rfl
    obtain ⟨m, hm, hproper, hmem, hinf, hle⟩ := outcome_call_picks "min" picks_smaller
      (by decide +kernel) place_le_infinity hg hes
    exact ⟨m, hm, hmem, hinf, fun x hx hx' => (le_iff_place_le hproper hx').2 (hle x hx hx')⟩
  · intro f hf hname
    obtain rfl := eq_of_name_eq (g := variadic "max" fun xs => .ok (maximum xs)) hf
      (by simp [functions]) hname
    have hg : maximum xs = xs.foldl larger (-1 / 0) := by rw [maximum, hempty]; rfl
    obtain ⟨m, hm, hproper, hmem, hinf, hle⟩ := outcome_call_picks "max" picks_larger
      (by decide +kernel) (fun x => OrderDual.toDual_le_toDual.2 (place_minus_infinity_le x)) hg hes
    exact ⟨m, hm, hmem, hinf, fun x hx hx' => (le_iff_place_le hx' hproper).2 (hle x hx hx')⟩

/-- Undefined values, an infinity and a value that occurs twice. -/
theorem outcome_extremes_mixed :
    let x : Variable := ⟨"x", 0⟩
    let s : Store Float := ⟨#[⟨-2, false⟩], 0⟩
    let nan : Expr Float := .binary .divide (.constant 0) (.constant 0) false
    let es : List (Expr Float) := [nan, .variable x, .constant (1 / 0), nan, .constant (-2)]
    let xs : List Float := [0 / 0, -2, 1 / 0, 0 / 0, -2]
    xs ≠ [] ∧ es.map (fun e => (e.evaluate s).outcome) = xs.map .ok ∧
      (∃ f ∈ functions, f.name = "min" ∧ ∃ m, ((Expr.call f es).evaluate s).outcome = .ok m ∧
        (∃ x ∈ xs, SameNumber m x) ∧ ∀ x ∈ xs, x.isNaN = false → m ≤ x) ∧
      ∃ f ∈ functions, f.name = "max" ∧ ∃ m, ((Expr.call f es).evaluate s).outcome = .ok m ∧
        (∃ x ∈ xs, SameNumber m x) ∧ ∀ x ∈ xs, x.isNaN = false → x ≤ m := by
  intro x s nan es xs
  have hne : xs ≠ [] := List.cons_ne_nil _ _
  have hes : es.map (fun e => (e.evaluate s).outcome) = xs.map .ok := by decide +kernel
  have hnumber : ∃ x ∈ xs, x.isNaN = false := by decide +kernel
  obtain ⟨hmin, hmax⟩ := outcome_extremes hne hes
  have hminimum : variadic "min" (fun xs => .ok (minimum xs)) ∈ functions := by simp [functions]
  have hmaximum : variadic "max" (fun xs => .ok (maximum xs)) ∈ functions := by simp [functions]
  refine ⟨hne, hes, ⟨_, hminimum, rfl, ?_⟩, _, hmaximum, rfl, ?_⟩
  · obtain ⟨m, hm, hmem, -, hle⟩ := hmin _ hminimum rfl
    exact ⟨m, hm, hmem.2 hnumber, hle⟩
  · obtain ⟨m, hm, hmem, -, hle⟩ := hmax _ hmaximum rfl
    exact ⟨m, hm, hmem.2 hnumber, hle⟩

end Builtins

/-- The only argument is undefined, and the result infinite. -/
theorem Calculator.evaluate_extremes_of_nan :
    let c := Calculator.new {} 0
    let value (source : String) := (c.evaluate source).1.outcome.toOption
    (value "0/0").map Float.isNaN = some true ∧ value "min(0/0)" = some (1 / 0) ∧
      value "max(0/0)" = some (-1 / 0) ∧ ¬SameNumber (1 / 0) (0 / 0) ∧
      ¬SameNumber (-1 / 0) (0 / 0) := by
  decide +kernel

end Reckon
