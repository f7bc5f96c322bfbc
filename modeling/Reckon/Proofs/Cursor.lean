import Reckon.Proofs.Delivery
import Mathlib.Tactic.Common

/-!
# Looking ahead is moving a cursor over a list

A reader of a `Lookahead` need not know that its items are fetched one by one. Whatever it asks for,
and in whatever order, it gets the answers that a `Cursor` over the list of all the items gives: one
that is moved forward by what is consumed and that never gets past the end of the list. Beyond the
list every look gives one and the same end item, or fails if the producer is broken. A request that
fails moves the cursor just as far as one that does not, so that no item is lost by it.

What has been fetched is what the requests have asked for and no more, and a producer that has said
that it has no more items is not asked again: nothing is assumed here about what it would say.

## Main definitions

* `Lookahead.Request`, `Lookahead.serveAll` — what a reader asks for, one request after another.
* `Cursor`, `Delivery.answer`, `Delivery.after` — the answers, as read off the list.
* `Lookahead.Follows` — a buffer is as far as a cursor.

## Main statements

* `Lookahead.Follows.serve` — one request is answered as the cursor answers it.
* `Lookahead.serveAll_eq` — any number of requests are.
-/

namespace Reckon

/-! ### Cursors -/

/-- What a reader may ask for. -/
inductive Lookahead.Request where
  | peek (offset : Nat)
  | consume
  | consumeMany (count : Nat)

namespace Lookahead.Request

/-- The item in front. -/
abbrev current : Request := .peek 0

/-- The item after the one in front. -/
abbrev next : Request := .peek 1

/-- How many items are asked for. -/
def span : Request → Nat
  | peek offset => offset + 1
  | consume => 1
  | consumeMany count => count

/-- How many items are taken. -/
def advance : Request → Nat
  | peek _ => 0
  | consume => 1
  | consumeMany count => count

end Lookahead.Request

open Lookahead (Request)

/-- A place in a list, how far the list has been asked for, and how many requests have failed. -/
structure Cursor where
  position : Nat := 0
  reach : Nat := 0
  failures : Nat := 0

namespace Delivery

variable {ι ε : Type} (d : Delivery ι ε) (c : Cursor)

/-- What a look past the last item gives. -/
def missing : Except ε ι :=
  match d.ending with
  | .ended item => .ok item
  | .broken failure => .error (failure c.failures)

/-- What a look at some place ahead gives. -/
def look (offset : Nat) : Except ε ι :=
  match d.items[c.position + offset]? with
  | some item => .ok item
  | none => d.missing c

/-- The answer to a request. -/
def answer : Request → Except ε (Option ι)
  | .peek offset => (d.look c offset).map some
  | .consume => (d.look c 0).map some
  | .consumeMany count =>
    if c.position + count ≤ d.items.length then .ok none else (d.missing c).map fun _ => none

/-- The cursor after a request. It moves as far as the list goes, also if the request fails. -/
def after (r : Request) : Cursor where
  position := min (c.position + r.advance) d.items.length
  reach := max c.reach (c.position + r.span)
  failures := c.failures + match d.answer c r with | .ok _ => 0 | .error _ => 1

/-- The answers to some requests. -/
def answers (c : Cursor) : List Request → List (Except ε (Option ι))
  | [] => []
  | r :: rs => d.answer c r :: answers (d.after c r) rs

/-- The cursor after some requests. -/
def afterAll (rs : List Request) : Cursor := rs.foldl d.after c

/-- How many items have been asked for. -/
def fetched : Nat := min c.reach d.items.length

/-- Whether an item has been asked for that is not there, so that the end has been reported. -/
def endReported : Bool :=
  match d.ending with
  | .ended _ => d.items.length < c.reach
  | .broken _ => false

/-- How often the producer has been called: once for each item, and then once for the end or once
for each failure. -/
def calls : Nat :=
  match d.ending with
  | .ended _ => min c.reach (d.items.length + 1)
  | .broken _ => d.fetched c + c.failures

/-- The first `n` items can be asked for without a failure. -/
def Grants (n : Nat) : Prop := ∀ failure, d.ending = .broken failure → n ≤ d.items.length

variable {d c}

theorem Grants.mono {m n : Nat} (h : d.Grants n) (hm : m ≤ n) : d.Grants m :=
  fun failure hfailure => Nat.le_trans hm (h failure hfailure)

theorem not_grants_iff {n : Nat} :
    ¬d.Grants n ↔ ∃ failure, d.ending = .broken failure ∧ d.items.length < n := by
  simp [Grants]

theorem fetched_eq (c : Cursor) : d.fetched c = min c.reach d.items.length := rfl

theorem lt_reach_of_endReported (h : d.endReported c) : d.items.length < c.reach := by
  rw [endReported] at h
  split at h
  · exact of_decide_eq_true h
  · cases h

/-- The end of a broken producer is never reported. -/
theorem endReported_of_broken {failure : Nat → ε} (h : d.ending = .broken failure) :
    d.endReported c = false := by
  rw [endReported, h]

end Delivery

namespace Lookahead

variable {σ ι ε : Type}

/-! ### Requests to a buffer -/

section Bind

variable {α β τ : Type} {x : EStateM ε τ α} {f : α → EStateM ε τ β} {t t' : τ}

theorem bind_ok {a : α} (h : x t = .ok a t') : (x >>= f) t = f a t' := by
  show EStateM.bind x f t = _
  rw [EStateM.bind, h]

theorem bind_error {e : ε} (h : x t = .error e t') : (x >>= f) t = .error e t' := by
  show EStateM.bind x f t = _
  rw [EStateM.bind, h]

theorem map_ok {g : α → β} {a : α} (h : x t = .ok a t') : (g <$> x) t = .ok (g a) t' := by
  show EStateM.map g x t = _
  rw [EStateM.map, h]

theorem map_error {g : α → β} {e : ε} (h : x t = .error e t') : (g <$> x) t = .error e t' := by
  show EStateM.map g x t = _
  rw [EStateM.map, h]

end Bind

variable [Producer σ ι ε]

/-- Carries out a request. -/
def perform : Request → EStateM ε (Lookahead σ ι) (Option ι)
  | .peek offset => some <$> peek offset
  | .consume => some <$> consume
  | .consumeMany count => do
    consumeMany count
    pure none

/-- The answer to a request, and the buffer after it, whether it fails or not. -/
def serve (l : Lookahead σ ι) (r : Request) : Except ε (Option ι) × Lookahead σ ι :=
  match perform r l with
  | .ok answer l' => (.ok answer, l')
  | .error e l' => (.error e, l')

/-- The answers to some requests, and the buffer after them. -/
def serveAll (l : Lookahead σ ι) : List Request → List (Except ε (Option ι)) × Lookahead σ ι
  | [] => ([], l)
  | r :: rs => ((l.serve r).1 :: ((l.serve r).2.serveAll rs).1, ((l.serve r).2.serveAll rs).2)

theorem serve_of_ok {l l' : Lookahead σ ι} {r : Request} {answer : Option ι}
    (h : perform r l = .ok answer l') : l.serve r = (.ok answer, l') := by
  rw [serve, h]

theorem serve_of_error {l l' : Lookahead σ ι} {r : Request} {e : ε}
    (h : perform r l = .error e l') : l.serve r = (.error e, l') := by
  rw [serve, h]

theorem fill_succ (n : Nat) (l : Lookahead σ ι) :
    fill (n + 1) l = (if l.endReached then pure () else pull >>= fun _ => fill n) l := rfl

theorem peek_eq (offset : Nat) (l : Lookahead σ ι) :
    peek offset l = (fill (offset + 1 - l.buffer.length) >>= fun _ => get >>= fun l' =>
      match l'.buffer[offset]? with
      | some item => pure item
      | none => theEnd) l := rfl

theorem consumeMany_succ (n : Nat) (l : Lookahead σ ι) :
    consumeMany (n + 1) l = (if l.buffer.isEmpty then
        if l.endReached then
          pure ()
        else
          pull >>= fun _ =>
            modify (fun l' => { l' with buffer := l'.buffer.tail }) >>= fun _ => consumeMany n
      else
        set { l with buffer := l.buffer.tail } >>= fun _ => consumeMany n) l := rfl

/-! ### Buffers that follow a cursor -/

variable {states : Nat → σ} {d : Delivery ι ε} {c : Cursor} {l : Lookahead σ ι}

/-- A buffer is as far as a cursor: it holds what has been asked for and is not yet consumed. -/
structure Follows (states : Nat → σ) (d : Delivery ι ε) (c : Cursor) (l : Lookahead σ ι) :
    Prop where
  producer : l.producer = states (d.calls c)
  buffer : l.buffer = (d.items.take (d.fetched c)).drop c.position
  endReached : l.endReached = d.endReported c
  endItem? (item : ι) (h : l.endItem? = some item) : d.ending = .ended item
  position_le : c.position ≤ d.fetched c
  failures (h : c.failures ≠ 0) : d.items.length < c.reach

namespace Follows

omit [Producer σ ι ε] in
theorem position_le_length (h : Follows states d c l) : c.position ≤ d.items.length :=
  Nat.le_trans h.position_le (Nat.min_le_right _ _)

omit [Producer σ ι ε] in
theorem length_buffer (h : Follows states d c l) :
    l.buffer.length = d.fetched c - c.position := by
  rw [h.buffer, List.length_drop, List.length_take, Delivery.fetched, Nat.min_assoc, Nat.min_self]

omit [Producer σ ι ε] in
theorem isEmpty_buffer_iff (h : Follows states d c l) :
    l.buffer.isEmpty ↔ min c.reach d.items.length ≤ c.position := by
  rw [List.isEmpty_iff_length_eq_zero, h.length_buffer, Nat.sub_eq_zero_iff_le,
    Delivery.fetched_eq]

omit [Producer σ ι ε] in
theorem getElem?_buffer (h : Follows states d c l) (offset : Nat)
    (hreach : c.position + offset < c.reach) :
    l.buffer[offset]? = d.items[c.position + offset]? := by
  rw [h.buffer, List.getElem?_drop, List.getElem?_take, Delivery.fetched]
  split
  · rfl
  · exact (List.getElem?_eq_none (by omega)).symm

omit [Producer σ ι ε] in
/-- How far past the end a cursor has reached makes no difference. -/
theorem congr {c' : Cursor} (h : Follows states d c l) (hposition : c'.position = c.position)
    (hfailures : c'.failures = c.failures)
    (hreach : c'.reach = c.reach ∨ d.items.length < c'.reach ∧ d.items.length < c.reach) :
    Follows states d c' l := by
  have hfetched : d.fetched c' = d.fetched c := by
    simp only [Delivery.fetched]
    omega
  have hcalls : d.calls c' = d.calls c := by
    simp only [Delivery.calls, hfetched, hfailures]
    split
    · omega
    · rfl
  have hreported : d.endReported c' = d.endReported c := by
    simp only [Delivery.endReported]
    split
    · rw [decide_eq_decide]
      omega
    · rfl
  have hreach' (hne : c'.failures ≠ 0) : d.items.length < c'.reach := by
    have := h.failures (hfailures ▸ hne)
    omega
  exact ⟨hcalls ▸ h.producer, by rw [hposition, hfetched]; exact h.buffer,
    hreported ▸ h.endReached, h.endItem?, by rw [hposition, hfetched]; exact h.position_le, hreach'⟩

omit [Producer σ ι ε] in
theorem failures_eq_zero (h : Follows states d c l) (hreach : c.reach ≤ d.items.length) :
    c.failures = 0 := by
  by_contra hne
  have := h.failures hne
  omega

omit [Producer σ ι ε] in
theorem producer_eq (h : Follows states d c l) (hreach : c.reach ≤ d.items.length) :
    l.producer = states c.reach := by
  rw [h.producer]
  congr 1
  simp only [Delivery.calls, Delivery.fetched, h.failures_eq_zero hreach]
  split <;> omega

/-- Fetching goes one item further. -/
theorem pull_item (hd : Producer.Delivers states d) (h : Follows states d c l)
    (hreach : c.reach < d.items.length) :
    ∃ l', Lookahead.pull l = .ok () l' ∧ Follows states d { c with reach := c.reach + 1 } l' := by
  have hle := Nat.le_of_lt hreach
  have hfetched : d.fetched c = c.reach := Nat.min_eq_left hle
  have hfetched' : d.fetched { c with reach := c.reach + 1 } = c.reach + 1 := Nat.min_eq_left hreach
  have hposition := hfetched ▸ h.position_le
  have hfailures := h.failures_eq_zero hle
  refine ⟨{ l with producer := states (c.reach + 1), buffer := l.buffer ++ [d.items[c.reach]] },
    ?_, ?_, ?_, ?_, h.endItem?, ?_, fun hne => absurd hfailures hne⟩
  · rw [Lookahead.pull, h.producer_eq hle, hd.item c.reach hreach]
  · simp only [Delivery.calls]
    split
    · rw [Nat.min_eq_left (by omega)]
    · rw [hfetched', hfailures]
  · have hlength : c.position ≤ (d.items.take c.reach).length := by
      rw [List.length_take]
      omega
    rw [h.buffer, hfetched, hfetched', List.take_add_one, List.getElem?_eq_getElem hreach,
      List.drop_append_of_le_length hlength]
    rfl
  · rw [h.endReached]
    simp only [Delivery.endReported]
    split
    · rw [decide_eq_decide]
      omega
    · rfl
  · rw [hfetched']
    exact Nat.le_succ_of_le hposition

/-- Fetching finds the end once there are no more items. -/
theorem pull_ended (hd : Producer.Delivers states d) (h : Follows states d c l) {item : ι}
    (hending : d.ending = .ended item) (hreach : c.reach = d.items.length) :
    ∃ l', Lookahead.pull l = .ok () l' ∧ Follows states d { c with reach := c.reach + 1 } l' := by
  have hfetched : d.fetched { c with reach := c.reach + 1 } = d.fetched c := by
    simp only [Delivery.fetched]
    omega
  have hle := Nat.le_of_eq hreach
  have hfailures := h.failures_eq_zero hle
  refine ⟨{ l with producer := states (c.reach + 1), endReached := true },
    ?_, ?_, hfetched ▸ h.buffer, ?_, h.endItem?, hfetched ▸ h.position_le,
    fun hne => absurd hfailures hne⟩
  · rw [Lookahead.pull, h.producer_eq hle, hreach, (hd.ended item hending).1]
  · simp only [Delivery.calls, hending]
    rw [Nat.min_eq_left (by omega)]
  · simp [Delivery.endReported, hending, hreach]

/-- Fetching fails once a broken producer has no more items. -/
theorem pull_broken (hd : Producer.Delivers states d) (h : Follows states d c l)
    {failure : Nat → ε} (hending : d.ending = .broken failure) (hreach : d.items.length ≤ c.reach) :
    ∃ l', Lookahead.pull l = .error (failure c.failures) l' ∧
      Follows states d { c with reach := c.reach + 1, failures := c.failures + 1 } l' := by
  have hfetched : d.fetched c = d.items.length := Nat.min_eq_right hreach
  have hfetched' : d.fetched { c with reach := c.reach + 1, failures := c.failures + 1 } =
      d.items.length := Nat.min_eq_right (Nat.le_succ_of_le hreach)
  have hproducer : l.producer = states (d.items.length + c.failures) := by
    rw [h.producer]
    simp only [Delivery.calls, hending, hfetched]
  refine ⟨{ l with producer := states (d.items.length + c.failures + 1) }, ?_, ?_, ?_, ?_,
    h.endItem?, ?_, fun _ => Nat.lt_succ_of_le hreach⟩
  · rw [Lookahead.pull, hproducer, hd.broken failure hending]
  · simp only [Delivery.calls, hending, hfetched', Nat.add_assoc]
  · rw [hfetched', ← hfetched]
    exact h.buffer
  · rw [h.endReached]
    simp only [Delivery.endReported, hending]
  · rw [hfetched', ← hfetched]
    exact h.position_le

/-- As long as the producer does not fail, fetching goes one item further or finds the end. -/
theorem pull (hd : Producer.Delivers states d) (h : Follows states d c l)
    (hend : l.endReached = false) (hgrants : d.Grants (c.reach + 1)) :
    ∃ l', Lookahead.pull l = .ok () l' ∧ Follows states d { c with reach := c.reach + 1 } l' := by
  by_cases hreach : c.reach < d.items.length
  · exact h.pull_item hd hreach
  · rw [h.endReached, Delivery.endReported] at hend
    cases hending : d.ending with
    | ended item =>
      refine h.pull_ended hd hending ?_
      simp only [hending, decide_eq_false_iff_not] at hend
      omega
    | broken failure => exact absurd (hgrants failure hending) hreach

/-- As long as the producer does not fail, a buffer is filled as far as it is asked for. -/
theorem fill (hd : Producer.Delivers states d) {n : Nat} (h : Follows states d c l)
    (hgrants : d.Grants (d.fetched c + n)) :
    ∃ l', Lookahead.fill n l = .ok () l' ∧
      Follows states d { c with reach := max c.reach (d.fetched c + n) } l' := by
  rw [Delivery.fetched_eq] at hgrants ⊢
  induction n generalizing c l with
  | zero => exact ⟨l, rfl, h.congr rfl rfl (by dsimp only; omega)⟩
  | succ n ih =>
    rw [fill_succ]
    cases hend : l.endReached with
    | true =>
      have hreach := Delivery.lt_reach_of_endReported (h.endReached ▸ hend)
      exact ⟨l, rfl, h.congr rfl rfl (by dsimp only; omega)⟩
    | false =>
      have hgrants₁ : d.Grants (c.reach + 1) := by
        intro failure hfailure
        have := hgrants failure hfailure
        omega
      obtain ⟨l₁, hpull, h₁⟩ := h.pull hd hend hgrants₁
      obtain ⟨l₂, hfill, h₂⟩ := ih h₁ (hgrants.mono (by dsimp only; omega))
      refine ⟨l₂, ?_, h₂.congr rfl rfl ?_⟩
      · rw [if_neg Bool.false_ne_true, bind_ok hpull]
        exact hfill
      · dsimp only
        omega

/-- A broken producer fails once it is asked for more items than it has. -/
theorem fill_broken (hd : Producer.Delivers states d) {n : Nat} (h : Follows states d c l)
    {failure : Nat → ε} (hending : d.ending = .broken failure)
    (hn : d.items.length < d.fetched c + n) :
    ∃ l', Lookahead.fill n l = .error (failure c.failures) l' ∧
      Follows states d
        { c with reach := max c.reach (d.fetched c + n), failures := c.failures + 1 } l' := by
  rw [Delivery.fetched_eq] at hn ⊢
  induction n generalizing c l with
  | zero => omega
  | succ n ih =>
    rw [fill_succ, h.endReached, Delivery.endReported_of_broken hending,
      if_neg Bool.false_ne_true]
    by_cases hreach : c.reach < d.items.length
    · obtain ⟨l₁, hpull, h₁⟩ := h.pull_item hd hreach
      obtain ⟨l₂, hfill, h₂⟩ := ih h₁ (by dsimp only; omega)
      rw [bind_ok hpull]
      refine ⟨l₂, hfill, h₂.congr rfl rfl ?_⟩
      dsimp only
      omega
    · obtain ⟨l₁, hpull, h₁⟩ := h.pull_broken hd hending (by omega)
      rw [bind_error hpull]
      refine ⟨l₁, rfl, h₁.congr rfl rfl ?_⟩
      dsimp only
      omega

/-- At the end the end item is given, the first time as well as later. -/
theorem theEnd (hd : Producer.Delivers states d) (h : Follows states d c l) {item : ι}
    (hending : d.ending = .ended item) (hreach : d.items.length < c.reach) :
    ∃ l', Lookahead.theEnd l = .ok item l' ∧ Follows states d c l' := by
  unfold Lookahead.theEnd
  split
  · next item' hitem' =>
    have heq := (h.endItem? item' hitem').symm.trans hending
    cases heq
    exact ⟨l, rfl, h⟩
  · have hproducer : l.producer = states (d.items.length + 1) := by
      rw [h.producer]
      simp only [Delivery.calls, hending]
      rw [Nat.min_eq_right hreach]
    have hitem : Producer.endItem l.producer = item := hproducer ▸ (hd.ended item hending).2
    refine ⟨{ l with endItem? := some item }, by rw [hitem], h.producer, h.buffer, h.endReached,
      ?_, h.position_le, h.failures⟩
    rintro _ ⟨⟩
    exact hending

/-- A look ahead gives what the list has there, or else the end item. -/
theorem peek (hd : Producer.Delivers states d) (h : Follows states d c l) (offset : Nat)
    (hgrants : d.Grants (c.position + offset + 1)) :
    ∃ item l', d.look c offset = .ok item ∧ Lookahead.peek offset l = .ok item l' ∧
      Follows states d { c with reach := max c.reach (c.position + offset + 1) } l' := by
  have hfetched := d.fetched_eq c
  have hposition := h.position_le
  have hlength := h.length_buffer
  obtain ⟨l₁, hfill, h₁⟩ := h.fill hd (n := offset + 1 - l.buffer.length) <| by
    intro failure hfailure
    have := hgrants failure hfailure
    omega
  replace h₁ : Follows states d { c with reach := max c.reach (c.position + offset + 1) } l₁ :=
    h₁.congr rfl rfl (by dsimp only; omega)
  have hget := h₁.getElem?_buffer offset (by dsimp only; omega)
  rw [peek_eq, bind_ok hfill, bind_ok (x := get) (a := l₁) rfl]
  dsimp only at hget
  rw [hget, Delivery.look]
  cases hitem : d.items[c.position + offset]? with
  | some item => exact ⟨item, l₁, rfl, rfl, h₁⟩
  | none =>
    have hle := List.getElem?_eq_none_iff.1 hitem
    cases hending : d.ending with
    | ended item =>
      obtain ⟨l₂, hend, h₂⟩ := h₁.theEnd hd hending (by dsimp only; omega)
      refine ⟨item, l₂, ?_, hend, h₂⟩
      simp only [Delivery.missing, hending]
    | broken failure =>
      have := hgrants failure hending
      omega

/-- A look past the last item of a broken producer fails. -/
theorem peek_broken (hd : Producer.Delivers states d) (h : Follows states d c l) (offset : Nat)
    {failure : Nat → ε} (hending : d.ending = .broken failure)
    (hoffset : d.items.length < c.position + offset + 1) :
    ∃ l', d.look c offset = .error (failure c.failures) ∧
      Lookahead.peek offset l = .error (failure c.failures) l' ∧
      Follows states d
        { c with
          reach := max c.reach (c.position + offset + 1)
          failures := c.failures + 1 } l' := by
  have hfetched := d.fetched_eq c
  have hposition := h.position_le
  have hlength := h.length_buffer
  obtain ⟨l₁, hfill, h₁⟩ := h.fill_broken hd (n := offset + 1 - l.buffer.length) hending (by omega)
  refine ⟨l₁, ?_, ?_, h₁.congr rfl rfl (by dsimp only; omega)⟩
  · rw [Delivery.look, List.getElem?_eq_none (by omega)]
    simp only [Delivery.missing, hending]
  · rw [peek_eq, bind_error hfill]

omit [Producer σ ι ε] in
/-- An item is dropped, if there is one in the buffer. -/
theorem tail (h : Follows states d c l) :
    Follows states d { c with position := min (c.position + 1) (min c.reach d.items.length) }
      { l with buffer := l.buffer.tail } := by
  refine ⟨h.producer, ?_, h.endReached, h.endItem?, Nat.min_le_right _ _, h.failures⟩
  show l.buffer.tail = (d.items.take (d.fetched c)).drop (min (c.position + 1) (d.fetched c))
  rw [h.buffer, List.tail_drop]
  by_cases hposition : c.position + 1 ≤ d.fetched c
  · rw [Nat.min_eq_left hposition]
  · rw [Nat.min_eq_right (by omega), List.drop_eq_nil_of_le, List.drop_eq_nil_of_le]
    all_goals
      rw [List.length_take]
      omega

/-- Items are consumed as far as there are any. -/
theorem consumeMany (hd : Producer.Delivers states d) {n : Nat} (h : Follows states d c l)
    (hgrants : d.Grants (c.position + n)) :
    ∃ l', Lookahead.consumeMany n l = .ok () l' ∧
      Follows states d
        { c with
          position := min (c.position + n) d.items.length
          reach := max c.reach (c.position + n) } l' := by
  induction n generalizing c l with
  | zero =>
    have hposition := Delivery.fetched_eq c ▸ h.position_le
    exact ⟨l, rfl, h.congr (by dsimp only; omega) rfl (by dsimp only; omega)⟩
  | succ n ih =>
    have hposition := Delivery.fetched_eq c ▸ h.position_le
    have hempty := h.isEmpty_buffer_iff
    rw [consumeMany_succ]
    by_cases hbuffer : l.buffer.isEmpty
    · rw [if_pos hbuffer]
      rw [hempty] at hbuffer
      cases hend : l.endReached with
      | true =>
        have hreach := Delivery.lt_reach_of_endReported (h.endReached ▸ hend)
        exact ⟨l, rfl, h.congr (by dsimp only; omega) rfl (by dsimp only; omega)⟩
      | false =>
        have hgrants₁ : d.Grants (c.reach + 1) := by
          intro failure hfailure
          have := hgrants failure hfailure
          omega
        obtain ⟨l₁, hpull, h₁⟩ := h.pull hd hend hgrants₁
        obtain ⟨l₂, hconsume, h₂⟩ := ih h₁.tail (hgrants.mono (by dsimp only; omega))
        refine ⟨l₂, ?_, h₂.congr (by dsimp only; omega) rfl (by dsimp only; omega)⟩
        rw [if_neg Bool.false_ne_true, bind_ok hpull]
        exact hconsume
    · rw [if_neg hbuffer]
      rw [hempty] at hbuffer
      obtain ⟨l₂, hconsume, h₂⟩ := ih h.tail (hgrants.mono (by dsimp only; omega))
      exact ⟨l₂, hconsume, h₂.congr (by dsimp only; omega) rfl (by dsimp only; omega)⟩

/-- A broken producer has no item left once it is asked to drop more than it has. -/
theorem consumeMany_broken (hd : Producer.Delivers states d) {n : Nat} (h : Follows states d c l)
    {failure : Nat → ε} (hending : d.ending = .broken failure)
    (hn : d.items.length < c.position + n) :
    ∃ l', Lookahead.consumeMany n l = .error (failure c.failures) l' ∧
      Follows states d
        { position := min (c.position + n) d.items.length
          reach := max c.reach (c.position + n)
          failures := c.failures + 1 } l' := by
  induction n generalizing c l with
  | zero => exact absurd h.position_le_length (Nat.not_le_of_lt hn)
  | succ n ih =>
    have hposition := Delivery.fetched_eq c ▸ h.position_le
    have hempty := h.isEmpty_buffer_iff
    rw [consumeMany_succ]
    by_cases hbuffer : l.buffer.isEmpty
    · rw [if_pos hbuffer, h.endReached, Delivery.endReported_of_broken hending,
        if_neg Bool.false_ne_true]
      rw [hempty] at hbuffer
      by_cases hreach : c.reach < d.items.length
      · obtain ⟨l₁, hpull, h₁⟩ := h.pull_item hd hreach
        obtain ⟨l₂, hconsume, h₂⟩ := ih h₁.tail (by dsimp only; omega)
        refine ⟨l₂, ?_, h₂.congr (by dsimp only; omega) rfl (by dsimp only; omega)⟩
        rw [bind_ok hpull]
        exact hconsume
      · obtain ⟨l₁, hpull, h₁⟩ := h.pull_broken hd hending (by omega)
        rw [bind_error hpull]
        exact ⟨l₁, rfl, h₁.congr (by dsimp only; omega) rfl (by dsimp only; omega)⟩
    · rw [if_neg hbuffer]
      rw [hempty] at hbuffer
      obtain ⟨l₂, hconsume, h₂⟩ := ih h.tail (by dsimp only; omega)
      exact ⟨l₂, hconsume, h₂.congr (by dsimp only; omega) rfl (by dsimp only; omega)⟩

/-- The item in front is taken, if there is one. -/
theorem consume (hd : Producer.Delivers states d) (h : Follows states d c l)
    (hgrants : d.Grants (c.position + 1)) :
    ∃ item l', d.look c 0 = .ok item ∧ Lookahead.consume l = .ok item l' ∧
      Follows states d
        { c with
          position := min (c.position + 1) d.items.length
          reach := max c.reach (c.position + 1) } l' := by
  obtain ⟨item, l₁, hlook, hpeek, h₁⟩ := h.peek hd 0 hgrants
  obtain ⟨l₂, hconsume, h₂⟩ := h₁.consumeMany hd hgrants
  refine ⟨item, l₂, hlook, ?_, h₂.congr rfl rfl (by dsimp only; omega)⟩
  show (Lookahead.peek 0 >>= fun item => Lookahead.consumeMany 1 >>= fun _ => pure item) l = _
  rw [bind_ok hpeek, bind_ok hconsume]
  rfl

/-- Nothing is taken from a broken producer that has no more items. -/
theorem consume_broken (hd : Producer.Delivers states d) (h : Follows states d c l)
    {failure : Nat → ε} (hending : d.ending = .broken failure)
    (hposition : d.items.length < c.position + 1) :
    ∃ l', d.look c 0 = .error (failure c.failures) ∧
      Lookahead.consume l = .error (failure c.failures) l' ∧
      Follows states d
        { position := min (c.position + 1) d.items.length
          reach := max c.reach (c.position + 1)
          failures := c.failures + 1 } l' := by
  obtain ⟨l₁, hlook, hpeek, h₁⟩ := h.peek_broken hd 0 hending hposition
  have hle := h.position_le_length
  refine ⟨l₁, hlook, ?_, h₁.congr (by dsimp only; omega) rfl (by dsimp only; omega)⟩
  show (Lookahead.peek 0 >>= fun item => Lookahead.consumeMany 1 >>= fun _ => pure item) l = _
  rw [bind_error hpeek]

/-- A request is answered as the cursor answers it, and what is left follows the cursor. -/
theorem serve (hd : Producer.Delivers states d) (h : Follows states d c l) (r : Request) :
    (l.serve r).1 = d.answer c r ∧ Follows states d (d.after c r) (l.serve r).2 := by
  have hle := h.position_le_length
  by_cases hgrants : d.Grants (c.position + r.span)
  · suffices hperform : ∃ answer l', d.answer c r = .ok answer ∧ perform r l = .ok answer l' ∧
        Follows states d
          { c with
            position := min (c.position + r.advance) d.items.length
            reach := max c.reach (c.position + r.span) } l' by
      obtain ⟨answer, l', hanswer, hperform, h'⟩ := hperform
      rw [serve_of_ok hperform]
      exact ⟨hanswer.symm, h'.congr rfl (by simp only [Delivery.after, hanswer]; rfl) (.inl rfl)⟩
    cases r with
    | peek offset =>
      obtain ⟨item, l', hlook, hpeek, h'⟩ := h.peek hd offset hgrants
      refine ⟨some item, l', ?_, map_ok hpeek, h'.congr (Nat.min_eq_left hle) rfl (.inl rfl)⟩
      rw [Delivery.answer, hlook]
      rfl
    | consume =>
      obtain ⟨item, l', hlook, hconsume, h'⟩ := h.consume hd hgrants
      refine ⟨some item, l', ?_, map_ok hconsume, h'⟩
      rw [Delivery.answer, hlook]
      rfl
    | consumeMany count =>
      obtain ⟨l', hconsume, h'⟩ := h.consumeMany hd hgrants
      refine ⟨none, l', ?_, bind_ok hconsume, h'⟩
      rw [Delivery.answer]
      split
      · rfl
      · next hlt =>
        rw [Delivery.missing]
        cases hending : d.ending with
        | ended => rfl
        | broken failure => exact absurd (hgrants failure hending) hlt
  · obtain ⟨failure, hending, hspan⟩ := Delivery.not_grants_iff.1 hgrants
    suffices hperform : ∃ l', d.answer c r = .error (failure c.failures) ∧
        perform r l = .error (failure c.failures) l' ∧
        Follows states d
          { position := min (c.position + r.advance) d.items.length
            reach := max c.reach (c.position + r.span)
            failures := c.failures + 1 } l' by
      obtain ⟨l', hanswer, hperform, h'⟩ := hperform
      rw [serve_of_error hperform]
      exact ⟨hanswer.symm, h'.congr rfl (by simp only [Delivery.after, hanswer]) (.inl rfl)⟩
    cases r with
    | peek offset =>
      obtain ⟨l', hlook, hpeek, h'⟩ := h.peek_broken hd offset hending hspan
      refine ⟨l', ?_, map_error hpeek, h'.congr (Nat.min_eq_left hle) rfl (.inl rfl)⟩
      rw [Delivery.answer, hlook]
      rfl
    | consume =>
      obtain ⟨l', hlook, hconsume, h'⟩ := h.consume_broken hd hending hspan
      refine ⟨l', ?_, map_error hconsume, h'⟩
      rw [Delivery.answer, hlook]
      rfl
    | consumeMany count =>
      obtain ⟨l', hconsume, h'⟩ := h.consumeMany_broken hd hending hspan
      refine ⟨l', ?_, bind_error hconsume, h'⟩
      have hlt : ¬c.position + count ≤ d.items.length := Nat.not_le_of_lt hspan
      rw [Delivery.answer, if_neg hlt, Delivery.missing, hending]
      rfl

/-- Requests are answered as the cursor answers them, one after another. -/
theorem serveAll (hd : Producer.Delivers states d) (h : Follows states d c l)
    (rs : List Request) :
    (l.serveAll rs).1 = d.answers c rs ∧ Follows states d (d.afterAll c rs) (l.serveAll rs).2 := by
  induction rs generalizing c l with
  | nil => exact ⟨rfl, h⟩
  | cons r rs ih =>
    obtain ⟨hanswer, h'⟩ := h.serve hd r
    obtain ⟨hanswers, h''⟩ := ih h'
    refine ⟨?_, h''⟩
    rw [Lookahead.serveAll, Delivery.answers, hanswer, hanswers]

end Follows

omit [Producer σ ι ε] in
/-- Before the first request nothing is fetched. -/
theorem follows_start (states : Nat → σ) (d : Delivery ι ε) :
    Follows states d {} { producer := states 0 } where
  producer := by
    simp only [Delivery.calls, Delivery.fetched, Nat.zero_min]
    split <;> rfl
  buffer := by
    simp only [Delivery.fetched, Nat.zero_min]
    rfl
  endReached := by
    simp only [Delivery.endReported, Nat.not_lt_zero, decide_false]
    split <;> rfl
  endItem? := nofun
  position_le := Nat.zero_le _
  failures h := absurd rfl h

/-- Whatever is asked for, the answers are those of a cursor over the list of all items. What has
been fetched is what has been asked for, the buffer holds what of it the cursor has not passed, and
the producer is not called again after it has reported its end. -/
theorem serveAll_eq (hd : Producer.Delivers states d) (rs : List Request) :
    let start : Lookahead σ ι := { producer := states 0 }
    let l := (start.serveAll rs).2
    let c := d.afterAll {} rs
    (start.serveAll rs).1 = d.answers {} rs ∧
      l.buffer = (d.items.take (d.fetched c)).drop c.position ∧
      l.buffered = d.fetched c - c.position ∧
      (l.isExhausted ↔ d.endReported c ∧ c.position = d.items.length) ∧
      l.producer = states (d.calls c) ∧
      (serveAll { producer := Metered.mk (states 0) 0 } rs).2.producer.calls = d.calls c := by
  intro start l c
  obtain ⟨hanswers, h⟩ := (follows_start states d).serveAll hd rs
  obtain ⟨-, hmetered⟩ :=
    (follows_start (fun n => Metered.mk (states n) n) d).serveAll hd.metered rs
  refine ⟨hanswers, h.buffer, h.length_buffer, ?_, h.producer, ?_⟩
  · have hposition : c.position ≤ d.items.length := h.position_le_length
    rw [isExhausted, Bool.and_eq_true, h.isEmpty_buffer_iff, h.endReached]
    refine and_congr_right fun hend => ?_
    have hreach : d.items.length < c.reach := Delivery.lt_reach_of_endReported hend
    show min c.reach d.items.length ≤ c.position ↔ c.position = d.items.length
    omega
  · rw [hmetered.producer]

end Lookahead

/-- A broken source is looked at past its last character, once by dropping more than there is. -/
theorem Lookahead.serveAll_eq_broken :
    let source : Source := { bytes := [0x61, 0x62, 0x63], failure := some "disk on fire" }
    let start : Lookahead Source Glyph := { producer := source }
    let rs : List Request := [.next, .consume, .consumeMany 3, .current, .consume]
    Producer.Delivers source.read source.delivery ∧
      (start.serveAll rs).1 = [.ok (some ⟨'b', ⟨1, 2⟩⟩), .ok (some ⟨'a', ⟨1, 1⟩⟩),
        .error "disk on fire", .error "disk on fire", .error "disk on fire"] ∧
      (start.serveAll rs).2.buffered = 0 ∧ ¬(start.serveAll rs).2.isExhausted ∧
      (serveAll { producer := Metered.mk source 0 } rs).2.producer.calls = 6 := by
  intro source start rs
  have hstart : source.read 0 = source := rfl
  obtain ⟨hanswers, -, hbuffered, hexhausted, -, hcalls⟩ := serveAll_eq source.delivers rs
  rw [hstart] at hanswers hbuffered hexhausted hcalls
  refine ⟨source.delivers, hanswers.trans ?_, hbuffered.trans ?_, fun h => ?_, hcalls.trans ?_⟩
  · rfl
  · rfl
  · exact absurd (hexhausted.1 h).1 (by decide)
  · rfl

end Reckon
