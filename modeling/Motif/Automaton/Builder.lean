/-
Building the automaton of a pattern state by state.

The layout (`Pattern.layout`) says at once where every state of a pattern stands and
where it leads. Here the same automaton is put together as it would be by hand: states
are pushed to the end of one array, edges are added to states that are there already,
and what is passed from one step to the next is only the number of the state at which
to go on. A node of the pattern appends its states to whatever the array holds and
hands back its first state and the state that accepts.

Nothing keeps a builder from changing a state that is not its own. It can name any
number below the size, and a number that is no state is a fault. That it leaves the
older states alone, and that what it appends does not depend on them, is a theorem
(`Motif.Proofs.Relocation`).
-/
import Motif.Automaton.Layout
import Motif.Fault

set_option autoImplicit false

namespace Motif

/-- The states of a pattern in an automaton that is being built. -/
structure Fragment where
  /-- The state through which the fragment is entered. -/
  entry : Nat
  /-- The state that is reached when the pattern has matched. -/
  exit : Nat
deriving DecidableEq, Repr, Inhabited

namespace State

variable {π : Type}

/-- The state with further silent edges, less preferred than those it has. -/
def lead (targets : List Nat) (state : State π) : State π :=
  { state with silent := state.silent ++ targets }

@[simp] theorem lead_junction (targets onward : List Nat) :
    (junction onward : State π).lead targets = junction (onward ++ targets) := rfl

@[simp] theorem lead_nil (state : State π) : state.lead [] = state := by simp [lead]

end State

/-- A step of building: it works on an automaton and tells about what it added. -/
abbrev Build (π β : Type) := StateT (Automaton π) (Except Fault) β

namespace Build

variable {π : Type}

/-! ## Single states and edges -/

/-- Appends a state without edges and tells its number. -/
def addState : Build π Nat := fun A =>
  .ok (A.size, { A with states := A.states.push {} })

/-- Changes the state of the given number. -/
def change (q : Nat) (f : State π → State π) : Build π Unit := fun A =>
  if q < A.size then .ok ((), { A with states := A.states.modify q f })
  else .error (.noSuchState q)

/-- Adds a silent edge, less preferred than those that leave `source` already. -/
def addSilent (source target : Nat) : Build π Unit := change source (State.lead [target])

/-- Adds an edge that consumes an element which meets the label. -/
def addReading (source target : Nat) (label : Label π) : Build π Unit :=
  change source fun state => { state with reading := state.reading ++ [(label, target)] }

/-- Lets the state be entered only at positions where the anchor holds. -/
def setAnchor (q : Nat) (condition : Anchor) : Build π Unit :=
  change q fun state => { state with anchor := some condition }

/-! ## The parts of a pattern -/

/-- Two states and an edge between them that consumes one element. -/
def addSingle (label : Label π) : Build π Fragment := do
  let entry ← addState
  let exit ← addState
  addReading entry exit label
  return ⟨entry, exit⟩

/-- Two states, of which the first can only be entered where the anchor holds. -/
def addAnchor (condition : Anchor) : Build π Fragment := do
  let entry ← addState
  let exit ← addState
  setAnchor entry condition
  addSilent entry exit
  return ⟨entry, exit⟩

/-- Silent edges to `more` and to `done`, the preferred one first. -/
def addChoice (source more done : Nat) (greedy : Bool) : Build π Unit :=
  if greedy then do
    addSilent source more
    addSilent source done
  else do
    addSilent source done
    addSilent source more

/-- Copies one behind the other, the first one entered from `current`. What is handed
back is the exit of the last one. -/
def addRequired (addCopy : Build π Fragment) : (count current : Nat) → Build π Nat
  | 0, current => return current
  | count + 1, current => do
    let copy ← addCopy
    addSilent current copy.entry
    addRequired addCopy count copy.exit

/-- Copies one behind the other, each of which can be passed over by going to `accept`. -/
def addOptional (addCopy : Build π Fragment) (accept : Nat) (greedy : Bool) :
    (count current : Nat) → Build π Nat
  | 0, current => return current
  | count + 1, current => do
    let copy ← addCopy
    addChoice current copy.entry accept greedy
    addOptional addCopy accept greedy count copy.exit

/-- What stands behind the copies that have to be there, entered from `current`: as many
more copies as `max` leaves, or a copy that leads back. A `max` below `min` leaves none. -/
def addFurther (addCopy : Build π Fragment) (min : Nat) (max : Option Nat) (greedy : Bool)
    (current accept : Nat) : Build π Unit :=
  match max with
  | some most => do
    let last ← addOptional addCopy accept greedy (most - min) current
    addSilent last accept
  | none => do
    let copy ← addCopy
    addChoice current copy.entry accept greedy
    addSilent copy.exit current

mutual
/-- Appends the states of a pattern. -/
def add : Pattern π → Build π Fragment
  | .predicate handle => addSingle (.predicate handle)
  | .any => addSingle .any
  | .sequence children => addSequence children
  | .repetition child min max greedy => do
    let entry ← addState
    let current ← addRequired (add child) min entry
    let accept ← addState
    addFurther (add child) min max greedy current accept
    return ⟨entry, accept⟩
  | .alternation left right => do
    let entry ← addState
    let first ← add left
    let second ← add right
    let accept ← addState
    addSilent entry first.entry
    addSilent entry second.entry
    addSilent first.exit accept
    addSilent second.exit accept
    return ⟨entry, accept⟩
  | .anchor condition => addAnchor condition

/-- Appends the states of the children one after the other. -/
def addSequence : List (Pattern π) → Build π Fragment
  | [] => do
    let entry ← addState
    let exit ← addState
    addSilent entry exit
    return ⟨entry, exit⟩
  | child :: rest => do
    let first ← add child
    let exit ← addRest rest first.exit
    return ⟨first.entry, exit⟩

/-- Appends the children that are entered from `current`, and hands back the exit of the
last one. -/
def addRest : List (Pattern π) → (current : Nat) → Build π Nat
  | [], current => return current
  | child :: rest, current => do
    let next ← add child
    addSilent current next.entry
    addRest rest next.exit
end

end Build

namespace Automaton

variable {π : Type}

/-- The automaton of a pattern, built from nothing. -/
def build (p : Pattern π) : Except Fault (Automaton π) := do
  let (fragment, A) ← (Build.add p).run ⟨#[], 0, 0⟩
  return { A with start := fragment.entry, accept := fragment.exit }

end Automaton

end Motif
