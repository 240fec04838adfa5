/-
Faults: the preconditions that the library checks as it runs.

An operation that is handed something outside its domain stops with a fault
instead of making an answer up. Four of them can be caused from outside: building an
automaton of more states than any memory has room for, asking an automaton about a
state it does not have, asking for a match at an offset past the end of the input, and
walking past the last position that a word can name. The others stand before steps that
the library only takes when they are safe, so that "this never happens" is a statement
about the code that runs and not about a simplified copy of it. Differences of positions
are among them: a position is never subtracted from a smaller one (`distance`).
-/

set_option autoImplicit false

namespace Motif

/-- A precondition that did not hold. -/
inductive Fault where
  /-- Room was asked for so many states that no memory could hold them. -/
  | noRoom (states : Nat)
  /-- The automaton has no state of this number. -/
  | noSuchState (state : Nat)
  /-- A match was asked for past the end of the input. -/
  | offsetPastEnd (offset length : Nat)
  /-- There is no position behind this one. -/
  | positionTooLarge (position : Nat)
  /-- The distance was asked for from a position to one before it. -/
  | backwards (near far : Nat)
  /-- A match reaches past the elements that are there. -/
  | matchPastEnd (start length : Nat)
  /-- An attempt was advanced although it was dead. -/
  | advancedWhileDead
  /-- An attempt was concluded before it had seen the whole input. -/
  | concludedEarly (position length : Nat)
  /-- The attempt of a scanner does not start where the scanner stands. -/
  | attemptMisplaced (attempt scanner : Nat)
  /-- More elements were to be passed over than a scanner keeps. -/
  | pastBuffer (passed kept : Nat)
deriving DecidableEq, Repr

/-- How many elements lie between two positions, the nearer one first. -/
def distance (near far : Nat) : Except Fault Nat :=
  if near ≤ far then .ok (far - near) else .error (.backwards near far)

theorem distance_of_le {near far : Nat} (h : near ≤ far) : distance near far = .ok (far - near) :=
  if_pos h

end Motif
