/-
Automata over arbitrary elements.

States are numbered and live in one array; an edge names its target by number,
so the graph may be cyclic without any value being so. There is one state to
start in and one that accepts.

There are two kinds of edges. Silent edges consume nothing, and they are ordered:
the order says which way of matching is preferred, and through the order of
closures it also fixes in which order predicates are evaluated. Reading edges
consume one element that meets their label. Equality of automata is equality on
the nose: the same numbering, the same order of edges, the same handles.
-/
import Motif.Anchor

set_option autoImplicit false

namespace Motif

/-- What an element has to meet to pass a reading edge. -/
inductive Label (π : Type) where
  /-- Every element passes. -/
  | any
  /-- The elements pass of which the predicate holds. -/
  | predicate (handle : π)
deriving DecidableEq, Repr, Inhabited

/-- One state of an automaton with the edges that leave it. -/
structure State (π : Type) where
  /-- Targets of the silent edges, the preferred one first. -/
  silent : List Nat := []
  /-- Labels and targets of the reading edges. -/
  reading : List (Label π × Nat) := []
  /-- If set, the state can only be entered at positions where it holds. -/
  anchor : Option Anchor := none
deriving DecidableEq, Repr, Inhabited

namespace State

variable {π : Type}

/-- A state that only leads on. -/
def junction (onward : List Nat) : State π := { silent := onward }

/-- A state that consumes one element and leads to `target`. -/
def reader (label : Label π) (target : Nat) : State π := { reading := [(label, target)] }

/-- A state that leads to `target` at positions where the anchor holds. -/
def gate (condition : Anchor) (target : Nat) : State π :=
  { silent := [target], anchor := some condition }

/-- May the state be entered at position `index`? -/
def admits (index : Nat) (length : Option Nat) (state : State π) : Bool :=
  state.anchor.all (Anchor.holds index length)

/-- Is the state closed only because the length is not known yet? -/
def awaitsLength (length : Option Nat) (state : State π) : Bool :=
  state.anchor.any (Anchor.awaitsLength length)

@[simp] theorem admits_junction (onward : List Nat) (index : Nat) (length : Option Nat) :
    (junction onward : State π).admits index length = true := rfl

@[simp] theorem admits_reader (label : Label π) (target index : Nat) (length : Option Nat) :
    (reader label target).admits index length = true := rfl

@[simp] theorem admits_gate (condition : Anchor) (target index : Nat) (length : Option Nat) :
    (gate condition target : State π).admits index length = condition.holds index length := rfl

/-- With a known length no state is left undecided. -/
@[simp] theorem awaitsLength_some (length : Nat) (state : State π) :
    state.awaitsLength (some length) = false := by
  cases h : state.anchor <;> simp [awaitsLength, h]

end State

/-- A finite automaton with one start and one accepting state. -/
structure Automaton (π : Type) where
  /-- The states; a state's number is its place in the array. -/
  states : Array (State π)
  /-- Where every run begins. -/
  start : Nat
  /-- The state that accepts. -/
  accept : Nat
deriving DecidableEq, Repr, Inhabited

namespace Automaton

variable {π : Type}

def size (A : Automaton π) : Nat := A.states.size

def state? (A : Automaton π) (q : Nat) : Option (State π) := A.states[q]?

theorem lt_size_of_state? {A : Automaton π} {q : Nat} {state : State π}
    (h : A.state? q = some state) : q < A.size := by
  rw [state?, Array.getElem?_eq_some_iff] at h
  exact h.1

/-- The numbers below the size, and no others, are states. -/
theorem state?_eq_none_iff {A : Automaton π} {q : Nat} : A.state? q = none ↔ A.size ≤ q := by
  rw [state?, Array.getElem?_eq_none_iff, size]

end Automaton

end Motif
