/-
Attempts to match from one fixed position.

An attempt keeps the states that the last element led to (its seeds), their
closure, and the length of the best match so far. It is alive as long as more
input could still change its outcome. There are three ways to die: no state is
active, a lazy matcher has found its first match, or the input has ended.

While the length of the input is unknown a closure may be deferred. The attempt
then stays alive even with no state active, since the end of the input may still
open a state. When the input ends, the last closure is computed once more with
the length known (`conclude`); the seeds are kept for that and for nothing else.
-/
import Motif.Automaton.Step
import Motif.Matcher

set_option autoImplicit false

namespace Motif

/-- The state of an attempt to match from a fixed position. -/
structure Attempt where
  /-- The position at which the attempt began. -/
  start : Nat
  /-- The position of the next element to consume. -/
  position : Nat
  /-- The states that the last element led to, or the start state. -/
  seeds : StateSet
  /-- The closure of the seeds. -/
  active : StateSet
  /-- The length of the best match so far. -/
  best : Option Nat
  /-- Can more input change the outcome? -/
  alive : Bool
deriving DecidableEq

namespace Attempt

variable {π α μ ε : Type}

/-- The length of the best match if the attempt has just found a closure: all that
was consumed, if the accepting state is among the states found. -/
def bestWith (m : Matcher π) (c : Closure) (a : Attempt) : Except Fault (Option Nat) :=
  if c.states.contains m.automaton.accept then do
    let consumed ← distance a.start a.position
    return some consumed
  else return a.best

/-- The attempt with its new closure and its new best length. A lazy matcher wants
no more once the accepting state is found. Otherwise the attempt lives on if there
is a state to go on from, or one that may still open. -/
def settled (m : Matcher π) (c : Closure) (best : Option Nat) (a : Attempt) : Attempt :=
  { a with
    active := c.states
    best
    alive :=
      if c.states.contains m.automaton.accept && !m.greedy then false
      else !c.states.isEmpty || c.deferred }

/-- Brings the closure up to date with the seeds. -/
def refresh (m : Matcher π) (length : Option Nat) (a : Attempt) : Except Fault Attempt := do
  let c ← m.automaton.closure a.seeds.toList a.position length
  let best ← a.bestWith m c
  return a.settled m c best

/-- A new attempt at a position. -/
def begin (m : Matcher π) (length : Option Nat) (start : Nat) : Except Fault Attempt :=
  refresh m length
    { start, position := start, seeds := StateSet.ofList [m.automaton.start], active := ∅,
      best := none, alive := true }

/-- Consumes the next element. -/
def advance (P : Predicates π α μ ε) (m : Matcher π) (length : Option Nat) (x : α)
    (a : Attempt) : Run π α μ ε Attempt :=
  if a.alive then do
    let seeds ← m.automaton.step P a.active x
    Run.ofChecked (refresh m length { a with seeds, position := a.position + 1 })
  else Run.fail .advancedWhileDead

/-- Consumes elements for as long as the attempt is alive. -/
def feed (P : Predicates π α μ ε) (m : Matcher π) (length : Option Nat) :
    List α → Attempt → Run π α μ ε Attempt
  | [], a => pure a
  | x :: xs, a =>
    if a.alive then do
      let a ← a.advance P m length x
      feed P m length xs a
    else pure a

/-- Gives the attempt up, with the best match so far. -/
def giveUp (a : Attempt) : Attempt := { a with alive := false }

/-- Concludes the attempt at the end of an input of length `length`. Anchors that
were waiting for the length are decided now. -/
def conclude (m : Matcher π) (length : Nat) (a : Attempt) : Except Fault Attempt :=
  if a.alive then
    if a.position = length then do
      let a ← refresh m (some length) a
      return a.giveUp
    else throw (.concludedEarly a.position length)
  else return a.giveUp

/-- A new attempt at the first of `ahead`, which consumes them for as long as it is
alive. -/
def run (P : Predicates π α μ ε) (m : Matcher π) (length : Option Nat) (start : Nat)
    (ahead : List α) : Run π α μ ε Attempt := do
  let a ← Run.ofChecked (begin m length start)
  a.feed P m length ahead

/-! ## What giving up leaves alone -/

@[simp] theorem best_giveUp (a : Attempt) : a.giveUp.best = a.best := rfl

@[simp] theorem alive_giveUp (a : Attempt) : a.giveUp.alive = false := rfl

/-- A dead attempt consumes nothing more. -/
theorem feed_of_dead (P : Predicates π α μ ε) (m : Matcher π) (length : Option Nat)
    (xs : List α) {a : Attempt} (h : a.alive = false) :
    a.feed P m length xs = pure a := by
  cases xs with
  | nil => rfl
  | cons x xs => rw [feed, if_neg (by simp [h])]

end Attempt

end Motif
