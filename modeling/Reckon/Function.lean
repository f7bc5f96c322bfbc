import Reckon.Number.Arithmetic
import Reckon.Run

/-!
# Functions

The functions that formulas can call. The body of a function is one of four kinds: it computes with
one or two numbers, in which case an argument that is no proper number is returned as it is and the
body is not entered; or it decides for itself which of its arguments are evaluated, with a fixed
number of them or any.

A body of the latter kinds is a `Demand`: a tree of requests for arguments, which ends in a result.
So a body sees of its arguments nothing but what they evaluate to, and nothing at all of those that
it does not ask for.

## Main definitions

* `Demand`, `Demand.run` — bodies that ask for their arguments.
* `Function` — a name, a body, and whether calls may be worked out in advance.
* `Function.call` — the value of a call, given the runs of its arguments.
-/

namespace Reckon

/-- A computation that asks for some of `n` arguments, one after another, and for the time. -/
inductive Demand (α : Type) (n : Nat) where
  | result (outcome : Except Error α)
  | argument (i : Fin n) (resume : Except Error α → Demand α n)
  | clock (resume : α → Demand α n)

namespace Demand

variable {α : Type} {n : Nat}

/-- Asks for an argument and goes on with its value; its failure is the failure of the whole. -/
def value (i : Fin n) (resume : α → Demand α n) : Demand α n :=
  .argument i fun
    | .ok x => resume x
    | .error e => .result (.error e)

/-- Asks for several arguments in order and goes on with their values. -/
def values : List (Fin n) → (List α → Demand α n) → Demand α n
  | [], resume => resume []
  | i :: is, resume => value i fun x => values is fun xs => resume (x :: xs)

/-- Asks for all arguments in order and goes on with their values. -/
def allValues (resume : List α → Demand α n) : Demand α n := values (List.finRange n) resume

/-- Answers the requests of a computation from the runs of the arguments. -/
def run (time : α) (arguments : Fin n → Run α) : Demand α n → Run α
  | .result outcome => .ofExcept outcome
  | .argument i resume =>
    let a := arguments i
    let r := run time arguments (resume a.outcome)
    ⟨r.outcome, a.entered ++ r.entered⟩
  | .clock resume => run time arguments (resume time)

end Demand

/-- What a function does with its arguments. -/
inductive Body (α : Type) where
  | unary (f : α → α)
  | binary (f : α → α → α)
  | fixed (n : Nat) (demand : Demand α n)
  | variadic (demand : (n : Nat) → Demand α n)

/-- How many arguments a body takes. -/
def Body.arity {α : Type} : Body α → Arity
  | unary _ => .fixed 1
  | binary _ => .fixed 2
  | fixed n _ => .fixed n
  | variadic _ => .variadic

/-- A function that formulas can call. -/
structure Function (α : Type) where
  name : String
  body : Body α
  /-- Calls with constant arguments are worked out in advance. -/
  deterministic : Bool := true
  /-- The number by which a run records calls of this function. -/
  serial : Nat := 0

namespace Function

variable {α : Type}

/-- How many arguments a function takes. -/
def arity (f : Function α) : Arity := f.body.arity

/-- Functions are taken for the same if they have the same name. -/
def same (f g : Function α) : Bool := f.name == g.name

/-- Enters the body of a function. -/
def entering (f : Function α) (r : Run α) : Run α := do
  Run.enter f.serial
  r

variable [Arithmetic α]

/-- Goes on with a proper number; any other number is the result. -/
def properly (a : Run α) (resume : α → Run α) : Run α := do
  let x ← a
  if Arithmetic.isNaN x then pure x else resume x

/-- The value of a call. -/
def call (f : Function α) (time : α) (arguments : List (Run α)) : Run α :=
  let wrongCount : Run α := .failed (.argumentCount f.name f.arity arguments.length)
  match f.body with
  | .unary g =>
    match arguments with
    | [a] => properly a fun x => f.entering (pure (g x))
    | _ => wrongCount
  | .binary g =>
    match arguments with
    | [a, b] => properly a fun x => properly b fun y => f.entering (pure (g x y))
    | _ => wrongCount
  | .fixed n demand =>
    if h : n = arguments.length then
      f.entering (demand.run time fun i => arguments.get (i.cast h))
    else
      wrongCount
  | .variadic demand => f.entering ((demand arguments.length).run time arguments.get)

end Function

/-- The function behind a condition: its second or its third argument, as the first says. -/
def conditional {α : Type} [Arithmetic α] : Function α where
  name := "if"
  body := .fixed 3 <|
    .value 0 fun x =>
      if Arithmetic.isTruthy x then
        .value 1 fun y => .result (.ok y)
      else
        .value 2 fun z => .result (.ok z)

/-- The function behind a pair of bars. -/
def absolute {α : Type} [Arithmetic α] : Function α where
  name := "abs"
  body := .unary Arithmetic.magnitude

end Reckon
