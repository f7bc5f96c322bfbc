/-!
# Looking ahead in a stream

A `Producer` hands out items one at a time and can only move forward. A `Lookahead` buffers its
items, so that a reader can look any number of items ahead before it takes one. Items are fetched
lazily, only as far as the deepest look requires, and once the producer has said that there are no
more it is never asked again: every look past the last item then gives one and the same end item,
which the producer is asked for on the first such look.

An operation that fails keeps the state that it has reached, so that nothing fetched is lost.

## Main definitions

* `Producer` — a source of items and of an end item.
* `Lookahead.peek`, `Lookahead.consume`, `Lookahead.consumeMany` — the reader's operations.
* `Lookahead.buffered`, `Lookahead.isExhausted` — what can be observed of the buffer.
-/

namespace Reckon

/-- A source of items `ι`, in state `σ`, that can only move forward and may fail with `ε`. -/
class Producer (σ : Type) (ι ε : outParam Type) where
  /-- The next item; `none` says that there are no more. -/
  fetch : EStateM ε σ (Option ι)
  /-- The item that stands for the end, as the producer describes it now. -/
  endItem : σ → ι

/-- A producer with the items that have been fetched from it and not yet consumed. -/
structure Lookahead (σ ι : Type) where
  producer : σ
  buffer : List ι := []
  /-- The producer has said that there are no more items. -/
  endReached : Bool := false
  /-- The end item, once a look past the last item has asked for it. -/
  endItem? : Option ι := none

namespace Lookahead

variable {σ ι ε : Type} [Producer σ ι ε]

/-- Fetches one item into the buffer, or learns that there are no more. -/
def pull : EStateM ε (Lookahead σ ι) Unit := fun l =>
  match Producer.fetch l.producer with
  | .ok (some item) p => .ok () { l with producer := p, buffer := l.buffer ++ [item] }
  | .ok none p => .ok () { l with producer := p, endReached := true }
  | .error e p => .error e { l with producer := p }

/-- Fetches `n` items, or all there are if they are fewer. -/
def fill : Nat → EStateM ε (Lookahead σ ι) Unit
  | 0 => pure ()
  | n + 1 => do
    if (← get).endReached then
      pure ()
    else
      pull
      fill n

/-- The end item, fixed by the first call. -/
def theEnd : EStateM ε (Lookahead σ ι) ι := fun l =>
  match l.endItem? with
  | some item => .ok item l
  | none =>
    let item := Producer.endItem l.producer
    .ok item { l with endItem? := some item }

/-- The item `offset` places ahead; nothing is consumed. -/
def peek (offset : Nat) : EStateM ε (Lookahead σ ι) ι := do
  fill (offset + 1 - (← get).buffer.length)
  match (← get).buffer[offset]? with
  | some item => pure item
  | none => theEnd

/-- Drops `n` items, or all there are if they are fewer. Items that are not buffered are fetched
one at a time and dropped at once. -/
def consumeMany : Nat → EStateM ε (Lookahead σ ι) Unit
  | 0 => pure ()
  | n + 1 => do
    let l ← get
    if l.buffer.isEmpty then
      if l.endReached then
        pure ()
      else
        pull
        modify fun l => { l with buffer := l.buffer.tail }
        consumeMany n
    else
      set { l with buffer := l.buffer.tail }
      consumeMany n

/-- Takes the item in front. At the end the end item is returned and nothing is taken. -/
def consume : EStateM ε (Lookahead σ ι) ι := do
  let item ← peek 0
  consumeMany 1
  pure item

/-- How many items are fetched and not yet consumed. -/
def buffered (l : Lookahead σ ι) : Nat := l.buffer.length

/-- Whether there is known to be nothing left. -/
def isExhausted (l : Lookahead σ ι) : Bool := l.endReached && l.buffer.isEmpty

end Lookahead

end Reckon
