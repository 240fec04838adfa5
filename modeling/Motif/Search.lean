/-
Searching an input that is all there.

A search stands at a position and holds the elements from there on. At each
position it makes one attempt; a match that is not empty is taken and the search
goes on behind it, otherwise it goes on one element further. The matches come out
from left to right and do not overlap.

A predicate may panic in the middle of an attempt. The search then still stands
at the position of that attempt, so it can be asked again and nothing is lost
or found twice. That is why `Search.next` returns the search beside the outcome,
and not inside of it.
-/
import Motif.Match
import Motif.Attempt

set_option autoImplicit false

namespace Motif

variable {π α μ ε : Type}

/-! ## One attempt -/

namespace Matcher

/-- The length of the preferred match at `position`, in an input of which `ahead`
are the elements from there on. It can be zero. -/
def lengthAhead (m : Matcher π) (P : Predicates π α μ ε) (position : Nat) (ahead : List α) :
    Run π α μ ε (Option Nat) := do
  let a ← Attempt.run P m (some (position + ahead.length)) position ahead
  return a.best

/-- The length of the preferred match that starts exactly at `offset`. An offset
past the end of the input is a fault, before any predicate is evaluated. -/
def lengthAt (m : Matcher π) (P : Predicates π α μ ε) (input : List α) (offset : Nat) :
    Run π α μ ε (Option Nat) :=
  if offset ≤ input.length then m.lengthAhead P offset (input.drop offset)
  else Run.fail (.offsetPastEnd offset input.length)

end Matcher

/-! ## A search from left to right -/

/-- Where a search with the matcher `m` stands. -/
structure Search (m : Matcher π) (α : Type) where
  /-- The position of the next attempt. -/
  position : Nat
  /-- The elements from there on. -/
  ahead : List α

namespace Search

variable {m : Matcher π}

/-- A search from the beginning of the input. -/
def ofList (input : List α) : Search m α := ⟨0, input⟩

/-- Where the search goes on after an attempt with the given best length. -/
def past (s : Search m α) (best : Option Nat) : Search m α :=
  ⟨s.position + stride best, s.ahead.drop (stride best)⟩

/-- Every attempt uses up at least one element. -/
theorem length_past_lt {s : Search m α} (h : s.ahead ≠ []) (best : Option Nat) :
    (s.past best).ahead.length < s.ahead.length := by
  have hpos := List.length_pos_iff.2 h
  have hstride := one_le_stride best
  rw [past, List.length_drop]
  omega

/-- One attempt at the position of the search: the length of the best match, and
the match if it is to be taken. -/
def probe (P : Predicates π α μ ε) (s : Search m α) :
    Run π α μ ε (Option Nat × Option (Match α)) := do
  let best ← m.lengthAhead P s.position s.ahead
  let taken ← Run.ofChecked (Match.taken? s.position s.ahead best)
  return (best, taken)

/-- Looks for the next match and says where the search stands afterwards. At the
end of the input there is none, however often the search is asked. An aborted
attempt leaves the search at the position of that attempt. -/
def next (P : Predicates π α μ ε) (s : Search m α) :
    StateM (Env π α μ) (Except (Abort ε) (Option (Match α)) × Search m α) :=
  if _ : s.ahead = [] then pure (.ok none, s)
  else do
    match ← (s.probe P).run with
    | .error cause => return (.error cause, s)
    | .ok (best, some found) => return (.ok (some found), s.past best)
    | .ok (best, none) => next P (s.past best)
termination_by s.ahead.length
decreasing_by exact length_past_lt ‹_› best

/-- All matches from the position of the search on. -/
def all (P : Predicates π α μ ε) (s : Search m α) : Run π α μ ε (List (Match α)) :=
  if _ : s.ahead = [] then pure []
  else do
    let (best, taken) ← s.probe P
    let rest ← all P (s.past best)
    return taken.toList ++ rest
termination_by s.ahead.length
decreasing_by exact length_past_lt ‹_› best

/-- A search that has used up its input finds nothing and stays where it is. -/
theorem next_of_ahead_eq_nil (P : Predicates π α μ ε) {s : Search m α} (h : s.ahead = []) :
    s.next P = pure (.ok none, s) := by
  rw [next, dif_pos h]

theorem all_of_ahead_eq_nil (P : Predicates π α μ ε) {s : Search m α} (h : s.ahead = []) :
    s.all P = pure [] := by
  rw [all, dif_pos h]

end Search

namespace Matcher

/-- All matches in the input, from left to right. -/
def allMatches (m : Matcher π) (P : Predicates π α μ ε) (input : List α) :
    Run π α μ ε (List (Match α)) :=
  (Search.ofList input : Search m α).all P

/-- The leftmost match in the input. -/
def firstMatch (m : Matcher π) (P : Predicates π α μ ε) (input : List α) :
    Run π α μ ε (Option (Match α)) :=
  ExceptT.mk do
    let (found, _) ← (Search.ofList input : Search m α).next P
    return found

/-- Is there a match in the input? -/
def hasMatch (m : Matcher π) (P : Predicates π α μ ε) (input : List α) : Run π α μ ε Bool := do
  let found ← m.firstMatch P input
  return found.isSome

end Matcher

end Motif
