/-
Consuming an element.

Every reading edge of every active state is tried, in the order of the states and
then in the order of their edges. Nothing is skipped: a predicate is evaluated
even if the target of its edge has been reached already, because the evaluation
may do more than answer.

A step alone says where the edges lead. Alternating steps with closures walks an
automaton over an input.
-/
import Motif.Automaton.Closure
import Motif.Run

set_option autoImplicit false

namespace Motif

variable {π α μ ε : Type}

/-- Does the element meet the label? Only a predicate is evaluated for it. -/
def Label.accepts (P : Predicates π α μ ε) (x : α) : Label π → Run π α μ ε Bool
  | .any => pure true
  | .predicate handle => Run.evaluate P handle x

namespace Automaton

/-- Tries the reading edges of one state, adding the targets that are reached. -/
def follow (P : Predicates π α μ ε) (x : α) :
    List (Label π × Nat) → StateSet → Run π α μ ε StateSet
  | [], reached => pure reached
  | (label, target) :: edges, reached => do
    let passes ← label.accepts P x
    follow P x edges (if passes then reached.insert target else reached)

/-- Tries the reading edges of the states of a list, adding the targets that are
reached. -/
def followAll (A : Automaton π) (P : Predicates π α μ ε) (x : α) :
    List Nat → StateSet → Run π α μ ε StateSet
  | [], reached => pure reached
  | q :: active, reached =>
    match A.state? q with
    | none => Run.fail (.noSuchState q)
    | some state => do
      let reached ← follow P x state.reading reached
      followAll A P x active reached

/-- The states that the active states reach by consuming `x`. -/
def step (A : Automaton π) (P : Predicates π α μ ε) (active : StateSet) (x : α) :
    Run π α μ ε StateSet :=
  A.followAll P x active.toList ∅

/-- The states that the states of a list reach by consuming `x`, each state counted
once. A number that is refused is a fault before any predicate is evaluated. -/
def stepFrom (A : Automaton π) (P : Predicates π α μ ε) (active : List Nat) (x : α) :
    Run π α μ ε StateSet := do
  let active ← Run.ofChecked (StateSet.ofNumbers active)
  A.step P active x

/-- The position behind `index`, if a word can name it. -/
def nextPosition (index : Nat) : Except Fault Nat :=
  match word? (index + 1) with
  | some next => .ok next
  | none => .error (.positionTooLarge index)

/-- The closures on the way through an input that begins at position `index`: the
one of the seeds, and the one behind each element. -/
def walkFrom (A : Automaton π) (P : Predicates π α μ ε) (length : Option Nat) :
    (seeds : StateSet) → (index : Nat) → List α → Run π α μ ε (List Closure)
  | seeds, index, [] => do
    let here ← Run.ofChecked (A.closure seeds.toList index length)
    return [here]
  | seeds, index, x :: xs => do
    let here ← Run.ofChecked (A.closure seeds.toList index length)
    let reached ← A.step P here.states x
    let next ← Run.ofChecked (nextPosition index)
    let rest ← A.walkFrom P length reached next xs
    return here :: rest

/-- The closures on the way of the start state through an input that begins at
position `index`. The walk goes on to the end of the input even after no state is
active any more. -/
def walk (A : Automaton π) (P : Predicates π α μ ε) (length : Option Nat) (index : Nat)
    (input : List α) : Run π α μ ε (List Closure) :=
  A.walkFrom P length (StateSet.ofList [A.start]) index input

end Automaton

end Motif
