/-
Closures: the states that are reached without consuming anything.

A closure is searched depth first. Edges are followed in their order and a state
is listed when it is first reached, so the list says which states are preferred.
A state whose anchor fails is closed, and so is everything that lies only behind
it. If an anchor fails for no other reason than that the length of the input is
not known, the closure is marked as deferred: searched again later, it may turn
out larger.

The search keeps a stack of states to visit. Every visit takes a state off the stack,
and the first visit of a state may put its targets there, which no later one does. So
the visits that are still to come are those of the stack and of the targets of states
that were not dealt with yet (`Automaton.outstanding`), and every visit leaves fewer of
them. That is why the search ends on every graph, cyclic or not.
-/
import Motif.StateSet
import Motif.Fault
import Motif.Automaton.Basic

set_option autoImplicit false

namespace Motif

/-- The states that are reached without consuming anything. -/
structure Closure where
  /-- The states in the order in which they were found. -/
  states : StateSet := ∅
  /-- Did an anchor fail only because the length is not known? -/
  deferred : Bool := false
deriving DecidableEq

namespace Automaton

variable {π : Type}

/-! ## Why the search ends -/

/-- How many targets a visit of the state can put on the stack. -/
def fanOut (A : Automaton π) (q : Nat) : Nat :=
  match A.state? q with
  | some state => state.silent.length
  | none => 0

/-- The numbers that `f` gives for the members of a list, put together. -/
def total (f : Nat → Nat) (qs : List Nat) : Nat := qs.foldr (fun q n => f q + n) 0

/-- How many targets can still be put on the stack, by the states that have been neither
found nor found closed. -/
def outstanding (A : Automaton π) (found closed : StateSet) : Nat :=
  total (fun q => if q ∈ found then 0 else if q ∈ closed then 0 else A.fanOut q)
    (List.range A.size)

theorem total_le {f g : Nat → Nat} (hle : ∀ q, g q ≤ f q) (qs : List Nat) :
    total g qs ≤ total f qs := by
  induction qs with
  | nil => exact Nat.le_refl 0
  | cons q qs ih => exact Nat.add_le_add (hle q) ih

/-- If no number grows and one of them gets smaller by `n`, then the total does. -/
theorem total_add_le {f g : Nat → Nat} {qs : List Nat} {a n : Nat} (hle : ∀ q, g q ≤ f q)
    (ha : a ∈ qs) (hn : g a + n ≤ f a) : total g qs + n ≤ total f qs := by
  induction qs with
  | nil => cases ha
  | cons q qs ih =>
    show g q + total g qs + n ≤ f q + total f qs
    rcases List.mem_cons.1 ha with rfl | ha
    · have hrest := total_le hle qs
      omega
    · have hrest := ih ha
      have hfirst := hle q
      omega

/-- A state that is found puts its targets on the stack, and no others later. -/
theorem outstanding_insert_add_le {A : Automaton π} {q : Nat} {state : State π}
    {found closed : StateSet} (hq : A.state? q = some state) (hfound : q ∉ found)
    (hclosed : q ∉ closed) :
    A.outstanding (found.insert q) closed + state.silent.length ≤ A.outstanding found closed := by
  refine total_add_le (a := q) (fun r => ?_) (List.mem_range.2 (lt_size_of_state? hq)) ?_
  · -- Nothing that was found before is taken out.
    by_cases hr : r ∈ found
    · have hr' : r ∈ found.insert q := StateSet.mem_toList_insert.2 (Or.inl hr)
      exact Nat.le_of_eq ((if_pos hr').trans (if_pos hr).symm)
    · rw [if_neg hr]
      split
      · exact Nat.zero_le _
      · exact Nat.le_refl _
  · have hnew : q ∈ found.insert q := StateSet.mem_toList_insert.2 (Or.inr rfl)
    rw [if_pos hnew, if_neg hfound, if_neg hclosed, fanOut, hq]
    exact Nat.le_of_eq (Nat.zero_add _)

theorem outstanding_insert_closed_le (A : Automaton π) (q : Nat) (found closed : StateSet) :
    A.outstanding found (closed.insert q) ≤ A.outstanding found closed := by
  refine total_le (fun r => ?_) _
  by_cases hr : r ∈ closed
  · have hr' : r ∈ closed.insert q := StateSet.mem_toList_insert.2 (Or.inl hr)
    refine Nat.le_of_eq ?_
    rw [if_pos hr, if_pos hr']
  · rw [if_neg hr]
    split
    · exact Nat.le_refl _
    · split
      · exact Nat.zero_le _
      · exact Nat.le_refl _

/-! ## The search -/

/-- Visits the states on the stack, adding what is found to `sofar` and what turns
out to be closed to `closed`. -/
def explore (A : Automaton π) (index : Nat) (length : Option Nat) (stack : List Nat)
    (closed : StateSet) (sofar : Closure) : Except Fault Closure :=
  match stack with
  | [] => .ok sofar
  | q :: stack =>
    if _ : q ∈ sofar.states then explore A index length stack closed sofar
    else if _ : q ∈ closed then explore A index length stack closed sofar
    else
      match _ : A.state? q with
      | none => .error (.noSuchState q)
      | some state =>
        if state.admits index length then
          explore A index length (state.silent ++ stack) closed
            { sofar with states := sofar.states.insert q }
        else
          explore A index length stack (closed.insert q)
            { sofar with deferred := sofar.deferred || state.awaitsLength length }
termination_by A.outstanding sofar.states closed + stack.length
decreasing_by
  · exact Nat.lt_succ_self _
  · exact Nat.lt_succ_self _
  · have houtstanding :=
      outstanding_insert_add_le ‹A.state? q = some _› ‹q ∉ sofar.states› ‹q ∉ closed›
    simp only [List.length_append, List.length_cons]
    omega
  · have houtstanding := A.outstanding_insert_closed_le q sofar.states closed
    simp only [List.length_cons]
    omega

/-- The closure of the seeds at position `index` of an input of length `length`,
or of an input whose length is not known. A seed, or the target of an edge that
is followed, which is no state of the automaton is a fault. -/
def closure (A : Automaton π) (seeds : List Nat) (index : Nat) (length : Option Nat) :
    Except Fault Closure :=
  A.explore index length seeds ∅ {}

/-! ## Storage that is used again -/

/-- What a search works with. It is kept from one search to the next and holds what
the last one left in it. -/
structure Scratch where
  /-- The states to visit. -/
  stack : List Nat := []
  /-- The states that were set aside. -/
  closed : StateSet := ∅
deriving DecidableEq

/-- The storage at the start of a search of the seeds: what it held is dropped. -/
def Scratch.refill (scratch : Scratch) (seeds : List Nat) : Scratch where
  stack := seeds
  closed := scratch.closed.clear

/-- The closure of the seeds, searched with storage that was used before and written
over the states of an older closure. -/
def closureInto (A : Automaton π) (out : StateSet) (scratch : Scratch) (seeds : List Nat)
    (index : Nat) (length : Option Nat) : Except Fault Closure :=
  A.explore index length (scratch.refill seeds).stack (scratch.refill seeds).closed
    { states := out.clear }

end Automaton

end Motif
