import Reckon.Proofs.Procedure
import Mathlib.Data.List.Infix

/-!
# Walks

A lexer goes through characters, and a parser through tokens. Both look at some items ahead and take
items off the front, and that is all they do to what is ahead. Past the last item there is an edge:
a look beyond it shows the end or fails, and from there nothing can be taken any more. A loop that
takes something in each round therefore ends, but a loop that only looks need not.

## Main definitions

* `Walk` — a procedure that goes through a list.
* `Walk.peek`, `Walk.consume` — the two things that a walk does.
* `Walk.ComesTo` — a walk ends, with a result and what it leaves or with an error.
* `Walk.Advances` — a walk ends, and to come to a result it takes something.
* `Walk.calls` — a walk that is called several times in a row.

## Main statements

* `Walk.exists_calls` — walks that advance come to no more results than there are items.
-/

namespace Reckon

variable {ι β γ : Type}

/-- A procedure that goes through a list: its state is what is still ahead. -/
abbrev Walk (ι β : Type) := Procedure (List ι) β

namespace Walk

/-- What a look at some place ahead shows. -/
def item (edge : Except Error ι) (ahead : List ι) (offset : Nat) : Except Error ι :=
  match ahead[offset]? with
  | some i => .ok i
  | none => edge

/-- Looks at the item some places ahead. -/
def peek (edge : Except Error ι) (offset : Nat) : Walk ι ι := do
  match item edge (← get) offset with
  | .ok i => pure i
  | .error e => throw e

/-- Drops some items, or all there are if they are fewer. -/
def drop (n : Nat) : Walk ι Unit := modify (List.drop n)

/-- Takes the item in front. At the end there is nothing to be taken. -/
def consume (edge : Except Error ι) : Walk ι ι := do
  let i ← peek edge 0
  drop 1
  pure i

/-- A walk ends, either with a result and before the given rest or with an error. It leaves a part
at the end of what was ahead, also if it fails. -/
inductive ComesTo (x : Walk ι β) (ahead : List ι) : Except Error (β × List ι) → Prop
  | ok {b rest} (h : x ahead = some (.ok b, rest)) (hrest : rest <:+ ahead) :
      ComesTo x ahead (.ok (b, rest))
  | error {e rest} (h : x ahead = some (.error e, rest)) (hrest : rest <:+ ahead) :
      ComesTo x ahead (.error e)

variable {x : Walk ι β} {f : β → Walk ι γ} {edge : Except Error ι} {ahead mid : List ι}

theorem comesTo_pure (b : β) (ahead : List ι) : ComesTo (pure b) ahead (.ok (b, ahead)) :=
  .ok rfl (List.suffix_refl _)

theorem comesTo_throw (e : Error) (ahead : List ι) :
    ComesTo (throw e : Walk ι β) ahead (.error e) := .error rfl (List.suffix_refl _)

namespace ComesTo

theorem suffix {b : β} (h : ComesTo x ahead (.ok (b, mid))) : mid <:+ ahead := by
  cases h with
  | ok _ hmid => exact hmid

theorem eq_some {b : β} (h : ComesTo x ahead (.ok (b, mid))) : x ahead = some (.ok b, mid) := by
  cases h with
  | ok hx _ => exact hx

theorem exists_eq_some {e : Error} (h : ComesTo x ahead (.error e)) :
    ∃ rest, x ahead = some (.error e, rest) := by
  cases h with
  | error hx _ => exact ⟨_, hx⟩

theorem bind_of_ok {b : β} {r : Except Error (γ × List ι)} (h : ComesTo x ahead (.ok (b, mid)))
    (hf : ComesTo (f b) mid r) : ComesTo (x >>= f) ahead r := by
  have hmid := h.suffix
  have hbind := Procedure.bind_of_ok (f := f) h.eq_some
  cases hf with
  | ok h hrest => exact .ok (hbind.trans h) (hrest.trans hmid)
  | error h hrest => exact .error (hbind.trans h) (hrest.trans hmid)

theorem bind_of_error {e : Error} (h : ComesTo x ahead (.error e)) :
    ComesTo (x >>= f) ahead (.error e) := by
  cases h with
  | error hx hrest => exact .error (Procedure.bind_of_error hx) hrest

/-- A walk that comes to what `r` is, and then one that comes to what `g` is. -/
theorem bind {ρ ρ' : Type} {r : Except Error ρ} {view : ρ → β × List ι} {g : ρ → Except Error ρ'}
    {view' : ρ' → γ × List ι} (h : ComesTo x ahead (r.map view))
    (hf : ∀ p, r = .ok p → (view p).2 <:+ ahead →
      ComesTo (f (view p).1) (view p).2 ((g p).map view')) :
    ComesTo (x >>= f) ahead ((r >>= g).map view') := by
  cases r with
  | error e => exact bind_of_error h
  | ok p => exact bind_of_ok h (hf p rfl (suffix h))

theorem bind_pure {r : Except Error (β × List ι)} (h : ComesTo x ahead r) (f : β → γ) :
    ComesTo (x >>= fun b => pure (f b)) ahead (r.map (Prod.map f id)) := by
  cases h with
  | ok hx hrest => exact .ok (Procedure.bind_of_ok hx) hrest
  | error hx hrest => exact .error (Procedure.bind_of_error hx) hrest

end ComesTo

theorem comesTo_peek (edge : Except Error ι) (ahead : List ι) (offset : Nat) :
    ComesTo (peek edge offset) ahead ((item edge ahead offset).map (·, ahead)) := by
  have hpeek : peek edge offset ahead =
      (match item edge ahead offset with
        | .ok i => pure i
        | .error e => throw e : Walk ι ι) ahead := rfl
  cases hi : item edge ahead offset with
  | error e => exact .error (by rw [hpeek, hi]; rfl) (List.suffix_refl _)
  | ok i => exact .ok (by rw [hpeek, hi]; rfl) (List.suffix_refl _)

/-- In front of an item a look at it succeeds. -/
theorem comesTo_front_bind {i : ι} {is : List ι} {f : ι → Walk ι γ} {r : Except Error (γ × List ι)}
    (hf : ComesTo (f i) (i :: is) r) : ComesTo (peek edge 0 >>= f) (i :: is) r :=
  (comesTo_peek edge (i :: is) 0).bind_of_ok hf

theorem comesTo_consume_cons (edge : Except Error ι) (i : ι) (is : List ι) :
    ComesTo (consume edge) (i :: is) (.ok (i, is)) :=
  .ok rfl (List.suffix_cons i is)

/-! ### Progress -/

/-- A walk ends, and leaves what was ahead but for some items at the front. To come to a result that
counts, it takes at least one. -/
def Advances (x : Walk ι β) (counts : β → Bool) (ahead : List ι) : Prop :=
  ∃ outcome taken rest, ahead = taken ++ rest ∧ x ahead = some (outcome, rest) ∧
    ∀ b, outcome = .ok b → counts b → taken ≠ []

theorem ComesTo.advances {r : Except Error (β × List ι)} {counts : β → Bool}
    (h : ComesTo x ahead r)
    (hcounts : ∀ b rest, r = .ok (b, rest) → counts b → rest.length < ahead.length) :
    Advances x counts ahead := by
  cases h with
  | ok hx hrest =>
    obtain ⟨taken, rfl⟩ := hrest
    refine ⟨_, taken, _, rfl, hx, fun b hb hcount => ?_⟩
    obtain rfl := Except.ok.inj hb
    rintro rfl
    exact absurd (hcounts _ _ rfl hcount) (Nat.lt_irrefl _)
  | error hx hrest =>
    obtain ⟨taken, rfl⟩ := hrest
    exact ⟨_, taken, _, rfl, hx, nofun⟩

/-- A walk that is called several times in a row, whatever comes of the calls. -/
def calls (x : Walk ι β) : Nat → List ι → Option (List (Except Error β) × List ι)
  | 0, ahead => some ([], ahead)
  | n + 1, ahead => do
    let (outcome, rest) ← x ahead
    let (outcomes, rest) ← calls x n rest
    some (outcome :: outcomes, rest)

theorem calls_succ {outcome : Except Error β} {outcomes : List (Except Error β)} {rest : List ι}
    {n : Nat} (hx : x ahead = some (outcome, mid)) (hn : calls x n mid = some (outcomes, rest)) :
    calls x (n + 1) ahead = some (outcome :: outcomes, rest) := by
  rw [calls, hx]
  show (calls x n mid).bind _ = _
  rw [hn]
  rfl

/-- How many of some outcomes are results that count. -/
def counted (counts : β → Bool) (outcomes : List (Except Error β)) : Nat :=
  outcomes.countP fun outcome => outcome.toOption.any counts

/-- However often a walk is called that advances, it comes to no more results that count than there
are items. -/
theorem exists_calls {counts : β → Bool} (hx : ∀ ahead, Advances x counts ahead) (n : Nat)
    (ahead : List ι) : ∃ outcomes rest, calls x n ahead = some (outcomes, rest) ∧
      outcomes.length = n ∧ counted counts outcomes + rest.length ≤ ahead.length := by
  induction n generalizing ahead with
  | zero => exact ⟨[], ahead, rfl, rfl, Nat.le_of_eq (Nat.zero_add _)⟩
  | succ n ih =>
    obtain ⟨outcome, taken, mid, rfl, hfirst, htaken⟩ := hx ahead
    obtain ⟨outcomes, rest, hrest, hlength, hcounted⟩ := ih mid
    refine ⟨outcome :: outcomes, rest, calls_succ hfirst hrest, congrArg (· + 1) hlength, ?_⟩
    have hone : (if outcome.toOption.any counts then 1 else 0) ≤ taken.length := by
      split
      · next hcount =>
        obtain ⟨b, hb, hcount⟩ := (Option.any_eq_true _ _).1 hcount
        cases outcome with
        | error e => cases hb
        | ok b' =>
          obtain rfl := Option.some.inj hb
          exact List.length_pos_iff.2 (htaken _ rfl hcount)
      · exact Nat.zero_le _
    rw [counted, List.countP_cons, List.length_append]
    rw [counted] at hcounted
    omega

end Walk

end Reckon
