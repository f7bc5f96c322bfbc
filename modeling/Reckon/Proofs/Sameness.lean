import Reckon.Calculator
import Reckon.Proofs.Dependence
import Reckon.Proofs.Folding
import Reckon.Proofs.Zeros

/-!
# What equal trees mean

Trees are taken for equal if they differ in nothing but seals, in the signs of zeros among their
constants, and in constants of different names or cells with equal values. Equal trees are evaluated
side by side, and all that can come to differ on the way is the sign of a zero, until it meets
something that tells the two zeros apart: a quotient, a power or a function. If that does not
happen, equal trees have the same value or fail with the same error.

## Main definitions

* `Expr.Meets` — parts of two trees that are evaluated in the same place.
* `Expr.TellsApart` — what is made of zeros of either sign is not the same.

## Main statements

* `Expr.outcomes_evaluate_of_same` — equal trees mean the same if nothing tells zeros apart.
* `Expr.TellsApart.exists_zeros` — what is told apart are zeros.
* `Calculator.compile_zeros` — equal trees of two formulas with different values.
-/

namespace Reckon

open Double (SameNumber OppositeZeros)

/-! ### Places in two trees -/

/-- Parts of two trees that are in the same place, and are evaluated there when the first tree is: a
right operand after a left one that has a value, and an argument that its function asks for. -/
inductive Expr.Meets (s : Store Float) : Expr Float → Expr Float → Expr Float → Expr Float → Prop
  | here {e e'} : Meets s e e' e e'
  | left {op op' l l' r r' b b' d d'} (h : Meets s l l' d d') :
    Meets s (.binary op l r b) (.binary op' l' r' b') d d'
  | right {op op' l l' r r' b b' d d'} (hl : (l.evaluate s).Succeeds) (h : Meets s r r' d d') :
    Meets s (.binary op l r b) (.binary op' l' r' b') d d'
  | argument {f g es es' i e e' d d'} (hasked : i ∈ f.asked s.time (Expr.evaluateAll s es))
    (he : es[i]? = some e) (he' : es'[i]? = some e') (h : Meets s e e' d d') :
    Meets s (.call f es) (.call g es') d d'

/-- The values of two trees, or the errors that they fail with, are the same up to the signs of
zeros. -/
abbrev Expr.MeansSame (s : Store Float) (e e' : Expr Float) : Prop :=
  Outcomes SameNumber (e.evaluate s).outcome (e'.evaluate s).outcome

/-- Something tells apart the zeros that it is given in two trees. -/
inductive Expr.TellsApart (s : Store Float) : Expr Float → Expr Float → Prop
  /-- A number other than zero is divided by zeros of different signs. -/
  | divide {l l' r r' b b' x y y'} (hx : (l.evaluate s).outcome = .ok x)
    (hy : (r.evaluate s).outcome = .ok y) (hy' : (r'.evaluate s).outcome = .ok y')
    (hzeros : OppositeZeros y y') (hne : ¬x == 0) (hproper : x.isNaN = false) :
    TellsApart s (.binary .divide l r b) (.binary .divide l' r' b')
  /-- The powers of the same numbers are not the same. -/
  | power {l l' r r' b b' x x' y y'} (hx : (l.evaluate s).outcome = .ok x)
    (hx' : (l'.evaluate s).outcome = .ok x') (hy : (r.evaluate s).outcome = .ok y)
    (hy' : (r'.evaluate s).outcome = .ok y') (hbases : SameNumber x x')
    (hexponents : SameNumber y y') (h : ¬SameNumber (Float.pow x y) (Float.pow x' y')) :
    TellsApart s (.binary .power l r b) (.binary .power l' r' b')
  /-- A function does not come to the same for arguments of which all that it asks for are. -/
  | call {f es es'} (hlength : es.length = es'.length)
    (hasked : ∀ i ∈ f.asked s.time (Expr.evaluateAll s es), ∀ e e', es[i]? = some e →
      es'[i]? = some e' → Expr.MeansSame s e e')
    (h : ¬Expr.MeansSame s (.call f es) (.call f es')) : TellsApart s (.call f es) (.call f es')

/-- Variables that are the same binding have the same value. -/
theorem Store.sameNumber_value {s : Store Float} {v w : Variable} (h : s.sameBinding v w) :
    SameNumber (s.value v) (s.value w) := by
  rw [sameBinding, Bool.or_eq_true, beq_iff_eq, Bool.and_eq_true] at h
  rcases h with hindex | ⟨-, hequal⟩
  · rw [value, value, cell, cell, hindex]
  · exact .inl hequal

namespace Expr

variable {s : Store Float} {l l' r r' : Expr Float} {b b' : Bool}

/-! ### Equal trees -/

/-- An operator has the same value for the same operands, unless it tells them apart. -/
theorem MeansSame.binary (op : Operator) (hl : MeansSame s l l')
    (hr : (l.evaluate s).Succeeds → MeansSame s r r')
    (h : ¬TellsApart s (.binary op l r b) (.binary op l' r' b')) :
    MeansSame s (.binary op l r b) (.binary op l' r' b') := by
  unfold MeansSame at hl hr ⊢
  rw [evaluate_binary, evaluate_binary, Run.outcome_bind, Run.outcome_bind]
  generalize hx : (l.evaluate s).outcome = u at hl
  generalize hx' : (l'.evaluate s).outcome = u' at hl
  cases hl with
  | error e => exact .error e
  | @ok x x' hsame =>
    have hr := hr ⟨x, hx⟩
    show Outcomes _ (r.evaluate s >>= _).outcome (r'.evaluate s >>= _).outcome
    rw [Run.outcome_bind, Run.outcome_bind]
    generalize hy : (r.evaluate s).outcome = v at hr
    generalize hy' : (r'.evaluate s).outcome = v' at hr
    cases hr with
    | error e => exact .error e
    | @ok y y' hsame' =>
      refine .ok ?_
      show SameNumber (Double.apply op x y) (Double.apply op x' y')
      by_cases hdiv : op = .divide
      · subst hdiv
        refine (Double.sameNumber_div_iff hsame hsame').2 ?_
        rintro ⟨hzeros, hne, hproper⟩
        exact h (.divide hx hy hy' hzeros hne hproper)
      · by_cases hpow : op = .power
        · subst hpow
          by_contra hdiffer
          exact h (.power hx hx' hy hy' hsame hsame' hdiffer)
        · exact hsame.apply hdiv hpow hsame'

theorem length_eq_of_sameAll : ∀ {es es' : List (Expr Float)}, sameAll s es es' →
    es.length = es'.length
  | [], [], _ => rfl
  | [], _ :: _, h => by simp [sameAll] at h
  | _ :: _, [], h => by simp [sameAll] at h
  | e :: es, e' :: es', h => by
    rw [sameAll, Bool.and_eq_true] at h
    rw [List.length_cons, List.length_cons, length_eq_of_sameAll h.2]

mutual

/-- Equal trees mean the same, if nothing that is evaluated in them tells zeros apart. -/
theorem meansSame_of_same : ∀ {e e' : Expr Float}, e.same s e' →
    (∀ f ∈ e.calledFunctions, ∀ g ∈ e'.calledFunctions, f.name = g.name → f = g) →
      (∀ d d', Meets s e e' d d' → ¬TellsApart s d d') → MeansSame s e e'
  | .constant x, e', h, _, _ => by
    cases e' with
    | constant y =>
      rw [same] at h
      exact .ok (.inl h)
    | _ => simp [same] at h
  | .variable v, e', h, _, _ => by
    cases e' with
    | «variable» w =>
      rw [same] at h
      exact .ok (Store.sameNumber_value h)
    | _ => simp [same] at h
  | .binary op l r b, e', h, hf, hapart => by
    cases e' with
    | binary op' l' r' b' =>
      rw [same, Bool.and_eq_true, Bool.and_eq_true, beq_iff_eq] at h
      obtain ⟨⟨rfl, hl⟩, hr⟩ := h
      rw [calledFunctions, calledFunctions] at hf
      have ihl : MeansSame s l l' := by
        refine meansSame_of_same hl (fun f hmem g hmem' => ?_) fun d d' h => hapart d d' (.left h)
        exact hf f (List.mem_append_left _ hmem) g (List.mem_append_left _ hmem')
      have ihr (hsucceeds : (l.evaluate s).Succeeds) : MeansSame s r r' := by
        refine meansSame_of_same hr (fun f hmem g hmem' => ?_) fun d d' h =>
          hapart d d' (.right hsucceeds h)
        exact hf f (List.mem_append_right _ hmem) g (List.mem_append_right _ hmem')
      exact .binary op ihl ihr (hapart _ _ .here)
    | _ => simp [same] at h
  | .call f es, e', h, hf, hapart => by
    cases e' with
    | call g es' =>
      rw [same, Bool.and_eq_true, Function.same, beq_iff_eq] at h
      obtain ⟨hname, hes⟩ := h
      rw [calledFunctions, calledFunctions] at hf
      obtain rfl := hf f List.mem_cons_self g List.mem_cons_self hname
      have ih := meansSame_of_sameAll hes fun f hmem g hmem' =>
        hf f (List.mem_cons_of_mem _ hmem) g (List.mem_cons_of_mem _ hmem')
      by_contra hdiffer
      refine hapart _ _ .here (.call (length_eq_of_sameAll hes)
        (fun i hasked e e' he he' => ?_) hdiffer)
      exact ih i e e' he he' fun d d' h => hapart d d' (.argument hasked he he' h)
    | _ => simp [same] at h

/-- The same for several trees, each on its own. -/
theorem meansSame_of_sameAll : ∀ {es es' : List (Expr Float)}, sameAll s es es' →
    (∀ f ∈ calledFunctionsOfAll es, ∀ g ∈ calledFunctionsOfAll es', f.name = g.name → f = g) →
      ∀ (i : Nat) (e e' : Expr Float), es[i]? = some e → es'[i]? = some e' →
        (∀ d d', Meets s e e' d d' → ¬TellsApart s d d') → MeansSame s e e'
  | [], _, _, _, i, e, e', he, _, _ => by simp at he
  | d :: ds, [], h, _, _, _, _, _, _, _ => by simp [sameAll] at h
  | d :: ds, d' :: ds', h, hf, i, e, e', he, he', hapart => by
    rw [sameAll, Bool.and_eq_true] at h
    rw [calledFunctionsOfAll, calledFunctionsOfAll] at hf
    cases i with
    | zero =>
      obtain rfl := Option.some.inj he
      obtain rfl := Option.some.inj he'
      refine meansSame_of_same h.1 (fun f hmem g hmem' => ?_) hapart
      exact hf f (List.mem_append_left _ hmem) g (List.mem_append_left _ hmem')
    | succ i =>
      refine meansSame_of_sameAll h.2 (fun f hmem g hmem' => ?_) i e e' he he' hapart
      exact hf f (List.mem_append_right _ hmem) g (List.mem_append_right _ hmem')

end

/-! ### Functions that do not tell zeros apart -/

theorem asked_value {n : Nat} {i : Fin n} {resume : Float → Demand Float n} {time : Float}
    {args : Fin n → Run Float} : (Demand.value i resume).asked time args =
      i :: match (args i).outcome with
        | .ok x => (resume x).asked time args
        | .error _ => [] := by
  rw [Demand.value, Demand.asked]
  cases (args i).outcome with
  | error e => rfl
  | ok x => rfl

/-- A condition asks for the number that it depends on, and then for the branch that is selected. -/
theorem asked_conditional {time : Float} {a b c : Run Float} :
    conditional.asked time [a, b, c] = 0 :: match a.outcome with
      | .ok x => if Double.isTruthy x then [1] else [2]
      | .error _ => [] := by
  have hresult (i : Fin 3) {args : Fin 3 → Run Float} :
      (Demand.value i fun y => .result (.ok y)).asked time args = [i] := by
    rw [asked_value]
    cases (args i).outcome <;> rfl
  show (Demand.asked time [a, b, c].get (Demand.value 0 _)).map Fin.val = _
  rw [asked_value]
  show 0 :: (match a.outcome with | .ok x => _ | .error e => []).map _ = _
  cases a.outcome with
  | error e => rfl
  | ok x =>
    dsimp only [Arithmetic.isTruthy]
    split <;> rw [hresult] <;> rfl

/-- A condition is selected in the same way by both zeros. -/
theorem not_tellsApart_conditional {es es' : List (Expr Float)} :
    ¬TellsApart s (.call conditional es) (.call conditional es') := by
  intro h
  cases h with
  | call hlength hasked hdiffer =>
    refine hdiffer ?_
    unfold MeansSame
    rw [evaluate, evaluate, evaluateAll_eq_map, evaluateAll_eq_map]
    by_cases hthree : es.length = 3
    · obtain ⟨a, b, c, rfl⟩ := List.length_eq_three.1 hthree
      obtain ⟨a', b', c', rfl⟩ := List.length_eq_three.1 (hlength.symm.trans hthree)
      simp only [evaluateAll_eq_map, List.map_cons, List.map_nil] at hasked ⊢
      rw [asked_conditional, List.forall_mem_cons] at hasked
      rw [Function.outcome_call_conditional, Function.outcome_call_conditional]
      have ha : MeansSame s a a' := hasked.1 a a' rfl rfl
      have hbranch := hasked.2
      unfold MeansSame at ha
      generalize (a.evaluate s).outcome = u at ha hbranch
      generalize (a'.evaluate s).outcome = u' at ha
      cases ha with
      | error e => exact .error e
      | @ok x x' hx =>
        show Outcomes _ (if Double.isTruthy x then _ else _) (if Double.isTruthy x' then _ else _)
        rw [← hx.isTruthy_eq]
        dsimp only at hbranch
        split at hbranch
        · next htrue =>
          rw [if_pos htrue, if_pos htrue]
          exact hbranch 1 List.mem_cons_self b b' rfl rfl
        · next hfalse =>
          rw [if_neg hfalse, if_neg hfalse]
          exact hbranch 2 List.mem_cons_self c c' rfl rfl
    · have hcount (args : List (Run Float)) (hargs : args.length = es.length) :
          conditional.call s.time args =
            .failed (.argumentCount "if" (.fixed 3) es.length) := by
        have hne : ¬3 = args.length := by omega
        simp only [Function.call, conditional, dif_neg hne, hargs]
        rfl
      rw [hcount _ (by simp), hcount _ (by simp [hlength])]
      exact .error _

/-! ### Zeros are all that is told apart -/

/-- Where two trees mean the same, they have the same outcome, or come to the two zeros. -/
theorem MeansSame.eq_or {e e' : Expr Float} (h : MeansSame s e e') :
    (e.evaluate s).outcome = (e'.evaluate s).outcome ∨
      ∃ x x', (e.evaluate s).outcome = .ok x ∧ (e'.evaluate s).outcome = .ok x' ∧
        OppositeZeros x x' := by
  unfold MeansSame at h
  generalize (e.evaluate s).outcome = u at h ⊢
  generalize (e'.evaluate s).outcome = u' at h ⊢
  cases h with
  | error e => exact .inl rfl
  | @ok x x' h =>
    by_cases hne : x = x'
    · exact .inl (congrArg _ hne)
    · obtain ⟨hx, hx'⟩ := h.eq_or.resolve_left hne
      exact .inr ⟨x, x', rfl, rfl, hx, hx', hne⟩

/-- The operands or arguments of a tree. -/
def parts : Expr Float → List (Expr Float)
  | .constant _ => []
  | .variable _ => []
  | .binary _ l r _ => [l, r]
  | .call _ arguments => arguments

/-- What is told apart are zeros, among the operands or arguments in the same place. -/
theorem TellsApart.exists_zeros {e e' : Expr Float} (h : TellsApart s e e') :
    ∃ (i : Nat) (d d' : Expr Float) (x x' : Float), e.parts[i]? = some d ∧ e'.parts[i]? = some d' ∧
      (d.evaluate s).outcome = .ok x ∧ (d'.evaluate s).outcome = .ok x' ∧ OppositeZeros x x' := by
  cases h with
  | @divide l l' r r' b b' x y y' hx hy hy' hzeros hne hproper =>
    exact ⟨1, r, r', y, y', rfl, rfl, hy, hy', hzeros⟩
  | @power l l' r r' b b' x x' y y' hx hx' hy hy' hbases hexponents h =>
    by_contra hnone
    have hbase : x = x' := by
      by_contra hne
      obtain ⟨hzero, hzero'⟩ := hbases.eq_or.resolve_left hne
      exact hnone ⟨0, l, l', x, x', rfl, rfl, hx, hx', hzero, hzero', hne⟩
    have hexponent : y = y' := by
      by_contra hne
      obtain ⟨hzero, hzero'⟩ := hexponents.eq_or.resolve_left hne
      exact hnone ⟨1, r, r', y, y', rfl, rfl, hy, hy', hzero, hzero', hne⟩
    rw [hbase, hexponent] at h
    exact h (.refl _)
  | @call f es es' hlength hasked h =>
    by_contra hnone
    have hagree : (f.call s.time (evaluateAll s es)).Agree (f.call s.time (evaluateAll s es')) := by
      refine Function.agree_call_of_asked ?_ fun i hi hlt hlt' => ?_
      · rw [evaluateAll_eq_map, evaluateAll_eq_map, List.length_map, List.length_map, hlength]
      · simp only [evaluateAll_eq_map, List.length_map] at hlt hlt'
        have hd := List.getElem?_eq_getElem hlt
        have hd' := List.getElem?_eq_getElem hlt'
        simp only [evaluateAll_eq_map, List.getElem_map]
        obtain heq | ⟨x, x', hx, hx', hzeros⟩ := (hasked i hi _ _ hd hd').eq_or
        · exact heq
        · exact absurd ⟨i, _, _, x, x', hd, hd', hx, hx', hzeros⟩ hnone
    refine h ?_
    unfold MeansSame
    rw [evaluate, evaluate, hagree]
    exact .of_eq .refl

/-- Two trees that are taken for equal, in which functions of one name are one function and pure,
have the same value or fail with the same error, each at any time, unless something that is
evaluated in the same place of both tells the two zeros apart. Whatever does so is given zeros of
either sign in that place, and it is not a condition. -/
theorem outcomes_evaluate_of_same {e e' : Expr Float} (h : e.same s e')
    (hf : ∀ f ∈ e.calledFunctions, ∀ g ∈ e'.calledFunctions, f.name = g.name → f = g)
    (hpure : e'.Calls fun f => f.body.IsPure) :
    ((∀ d d', Meets s e e' d d' → ¬TellsApart s d d') → ∀ time : Float,
      Outcomes SameNumber (e.evaluate s).outcome (e'.evaluate { s with time }).outcome) ∧
    ∀ d d', Meets s e e' d d' → TellsApart s d d' →
      (∀ es, d ≠ .call conditional es) ∧
      ∃ (i : Nat) (a a' : Expr Float) (x x' : Float), d.parts[i]? = some a ∧
        d'.parts[i]? = some a' ∧ (a.evaluate s).outcome = .ok x ∧
        (a'.evaluate s).outcome = .ok x' ∧ OppositeZeros x x' := by
  refine ⟨fun hapart time => ?_, fun d d' _ htells => ⟨?_, htells.exists_zeros⟩⟩
  · have htime : e'.evaluate { s with time } = e'.evaluate s := evaluate_congr hpure fun v _ => rfl
    rw [htime]
    exact meansSame_of_same h hf hapart
  · rintro es rfl
    cases htells with
    | call hlength hasked hdiffer =>
      exact not_tellsApart_conditional (.call hlength hasked hdiffer)

/-- The constants `p` and `m` are zeros of different signs, and so are the products with them. The
quotients would be different infinities, but are not evaluated. -/
theorem outcomes_evaluate_of_same_products :
    let x : Variable := ⟨"x", 0⟩
    let s : Store Float := ⟨#[⟨4, false⟩, ⟨0, true⟩, ⟨-0, true⟩], 0⟩
    let e (v : Variable) (isSealed : Bool) : Expr Float := .call conditional
      [.binary .lessThan (.variable x) (.constant 5) false,
        .binary .multiply (.variable x) (.variable v) isSealed,
        .binary .divide (.variable x) (.variable v) isSealed]
    let p : Variable := ⟨"p", 1⟩
    let m : Variable := ⟨"m", 2⟩
    (e p true).same s (e m false) ∧
      (∀ f ∈ (e p true).calledFunctions, ∀ g ∈ (e m false).calledFunctions,
        f.name = g.name → f = g) ∧
      ((e m false).Calls fun f => f.body.IsPure) ∧
      (∀ d d', Meets s (e p true) (e m false) d d' → ¬TellsApart s d d') ∧
      ((e p true).evaluate s).outcome = .ok 0 ∧
      ((e m false).evaluate { s with time := 1 }).outcome = .ok (-0) ∧
      Outcomes SameNumber ((e p true).evaluate s).outcome
        ((e m false).evaluate { s with time := 1 }).outcome := by
  intro x s e p m
  have hsame : (e p true).same s (e m false) := by decide +kernel
  have hshared : ∀ f ∈ (e p true).calledFunctions, ∀ g ∈ (e m false).calledFunctions,
      f.name = g.name → f = g := by
    simp [e, calledFunctions, calledFunctionsOfAll]
  have hpure : (e m false).Calls fun f => f.body.IsPure := by
    have hconditional : (conditional : Function Float).body.IsPure := isFoldable_conditional rfl
    simp [e, Calls, AllCall, hconditional]
  have hasked : conditional.asked s.time (evaluateAll s (e p true).parts) = [0, 1] := by
    decide +kernel
  have hapart : ∀ d d', Meets s (e p true) (e m false) d d' → ¬TellsApart s d d' := by
    intro d d' h
    cases h with
    | here => exact not_tellsApart_conditional
    | @argument _ _ _ _ i _ _ _ _ hi hd hd' h =>
      have hi : i ∈ conditional.asked s.time (evaluateAll s (e p true).parts) := hi
      rw [hasked, List.mem_pair] at hi
      -- The arguments that are evaluated are neither quotients nor powers, nor are their operands.
      rcases hi with rfl | rfl
      · cases hd
        cases hd'
        rcases h with _ | ⟨⟨⟩⟩ | ⟨_, ⟨⟩⟩ <;> rintro ⟨⟩
      · cases hd
        cases hd'
        rcases h with _ | ⟨⟨⟩⟩ | ⟨_, ⟨⟩⟩ <;> rintro ⟨⟩
  exact ⟨hsame, hshared, hpure, hapart, by decide +kernel, by decide +kernel,
    (outcomes_evaluate_of_same hsame hshared hpure).1 hapart 1⟩

end Expr

/-- The trees of two formulas are taken for equal, and one of them is infinite and the other one
minus infinite. -/
theorem Calculator.compile_zeros :
    let c := ((Calculator.new {} 0).assign "x" 1).toOption.getD (Calculator.new {} 0)
    let s := c.workspace.store
    let tree (source : String) := (c.compile source).1.outcome.toOption.map Formula.expr
    ∃ e e', tree "x/0" = some e ∧ tree "x/-0" = some e' ∧ e.same s e' ∧
      e.calledFunctions = [] ∧ e'.calledFunctions = [] ∧
      (e.evaluate s).outcome = .ok (1 / 0) ∧ (e'.evaluate s).outcome = .ok (-(1 / 0)) ∧
      ¬Outcomes SameNumber (e.evaluate s).outcome (e'.evaluate s).outcome := by
  intro c s tree
  have he : (tree "x/0").isSome := by decide +kernel
  have he' : (tree "x/-0").isSome := by decide +kernel
  let e := (tree "x/0").get he
  let e' := (tree "x/-0").get he'
  obtain ⟨hsame, hnone, hnone', hvalue, hvalue'⟩ : e.same s e' ∧ e.calledFunctions.length = 0 ∧
      e'.calledFunctions.length = 0 ∧ (e.evaluate s).outcome = .ok (1 / 0) ∧
      (e'.evaluate s).outcome = .ok (-(1 / 0)) := by
    decide +kernel +revert
  refine ⟨e, e', (Option.some_get he).symm, (Option.some_get he').symm, hsame,
    List.length_eq_zero_iff.1 hnone, List.length_eq_zero_iff.1 hnone', hvalue, hvalue', ?_⟩
  rw [hvalue, hvalue']
  rintro (h | _)
  revert h
  decide +kernel

end Reckon
