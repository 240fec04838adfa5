/-
Searching an input that arrives one element at a time.

A scanner always has one attempt going on, and it keeps the elements from the
start of that attempt on. As soon as the attempt is dead its outcome is final: its
match is emitted or its position is passed over, and a new attempt catches up
with the elements that are kept. An element is forgotten when it can no longer be
part of a match.

Positions are counted in four places: how many elements have arrived, where the
current attempt began, where the elements that are kept begin, and how far the
attempt has come. They drift apart while dead attempts are being replaced, because
the elements before the new attempt are forgotten only once, at the end (`trim`).
What is kept is therefore always cut by a distance between two of them, and the
distance is checked.

Until the end of the input is told, its length is unknown, and an anchor at the
end never holds. When it is told, the attempt that is going on is concluded with
the length known, and whatever attempts follow are run over the elements that are
left.

A scanner that has ended stays as it is: whatever is pushed into it is ignored,
and a warning is written to the log.
-/
import Motif.Match
import Motif.Attempt

set_option autoImplicit false

namespace Motif

variable {π α μ ε : Type}

/-- A search over arriving input with the matcher `m`. -/
structure Scanner (m : Matcher π) (α : Type) where
  /-- How many elements have arrived. -/
  position : Nat
  /-- The position at which the current attempt began. -/
  start : Nat
  /-- The position of the first element that is kept. It falls behind `start` only
  while dead attempts are being replaced. -/
  origin : Nat
  /-- The elements that are kept. -/
  buffer : Array α
  /-- The current attempt. -/
  attempt : Attempt
  /-- Has the end of the input been told? -/
  ended : Bool

namespace Scanner

variable {m : Matcher π}

/-! ## Looking at a scanner -/

/-- How many elements are kept. -/
def kept (s : Scanner m α) : Nat := s.buffer.size

/-- A scanner that nothing has been pushed into. -/
def begin (m : Matcher π) : Except Fault (Scanner m α) := do
  let attempt ← Attempt.begin m none 0
  return ⟨0, 0, 0, #[], attempt, false⟩

/-- How many of the elements that are kept lie before the current attempt. -/
def passed (s : Scanner m α) : Except Fault Nat := do
  let n ← distance s.origin s.start
  if n ≤ s.buffer.size then return n else throw (.pastBuffer n s.buffer.size)

/-- The elements that are kept except for the first `n`. Nothing is copied if all of
them stay. -/
def keptPast (s : Scanner m α) (n : Nat) : Array α :=
  if n = 0 then s.buffer else s.buffer.extract n s.buffer.size

@[simp] theorem toList_keptPast (s : Scanner m α) (n : Nat) :
    (s.keptPast n).toList = s.buffer.toList.drop n := by
  unfold keptPast
  split
  · rename_i h
    rw [h, List.drop_zero]
  · have hlen : (s.buffer.toList.drop n).length = s.buffer.size - n := by
      rw [List.length_drop, Array.length_toList]
    rw [Array.toList_extract, List.extract_eq_take_drop]
    exact List.take_of_length_le (Nat.le_of_eq hlen)

/-- The elements from the start of the current attempt on. -/
def ahead (s : Scanner m α) : Except Fault (List α) := do
  let n ← s.passed
  return (s.keptPast n).toList

/-- Forgets the elements before the current attempt. -/
def trim (s : Scanner m α) : Except Fault (Scanner m α) := do
  let n ← s.passed
  return { s with origin := s.start, buffer := s.keptPast n }

/-! ## Dealing with dead attempts -/

/-- The match of the current attempt, if there is one to emit. -/
def emit (s : Scanner m α) : Run π α μ ε (Option (Match α)) := do
  if s.attempt.start ≠ s.start then
    Run.fail (.attemptMisplaced s.attempt.start s.start)
  let elements ← Run.ofChecked s.ahead
  let taken ← Run.ofChecked (Match.taken? s.start elements s.attempt.best)
  if let some found := taken then
    Run.report (.emitting found.first found.last)
  return taken

/-- The scanner with its start behind the current attempt, which is dead. -/
def past (s : Scanner m α) : Scanner m α := { s with start := s.start + stride s.attempt.best }

/-- A new attempt at the start that has caught up with the elements from there on.
Once the length is known they are all that it will ever see, and it is given up. -/
def catchUp (P : Predicates π α μ ε) (length : Option Nat) (s : Scanner m α) :
    Run π α μ ε Attempt := do
  let replayed ← Run.ofChecked (distance s.start s.position)
  Run.report (.restarting s.start replayed)
  let elements ← Run.ofChecked s.ahead
  let attempt ← Attempt.run P m length s.start elements
  return if length.isSome then attempt.giveUp else attempt

/-- Replaces dead attempts until one stays alive or no elements are left. The
matches come out from left to right. -/
def replaceDead (P : Predicates π α μ ε) (length : Option Nat) (s : Scanner m α) :
    Run π α μ ε (List (Match α) × Scanner m α) :=
  if s.attempt.alive then pure ([], s)
  else if _ : s.position ≤ s.start then pure ([], s)
  else do
    let taken ← s.emit
    let attempt ← s.past.catchUp P length
    let (later, s) ← replaceDead P length { s.past with attempt }
    return (taken.toList ++ later, s)
termination_by s.position - s.start
decreasing_by
  have := one_le_stride s.attempt.best
  simp only [past]
  omega

/-- Replaces dead attempts and forgets the elements that can no longer be part of a
match. -/
def moveOn (P : Predicates π α μ ε) (length : Option Nat) (s : Scanner m α) :
    Run π α μ ε (List (Match α) × Scanner m α) := do
  let (found, s) ← s.replaceDead P length
  let s ← Run.ofChecked s.trim
  return (found, s)

/-! ## Pushing and ending -/

/-- The scanner with one more element, which its attempt has not seen. -/
def receive (x : α) (s : Scanner m α) : Scanner m α :=
  { s with position := s.position + 1, buffer := s.buffer.push x }

/-- Takes the next element and returns the matches that have become certain. -/
def push (P : Predicates π α μ ε) (x : α) (s : Scanner m α) :
    Run π α μ ε (List (Match α) × Scanner m α) :=
  if s.ended then do
    Run.report .pushedAfterEnd
    return ([], s)
  else do
    let attempt ← if s.attempt.alive then s.attempt.advance P m none x else pure s.attempt
    moveOn P none { s.receive x with attempt }

/-- Tells the scanner that the input has ended, and returns the remaining matches. -/
def close (P : Predicates π α μ ε) (s : Scanner m α) :
    Run π α μ ε (List (Match α) × Scanner m α) :=
  if s.ended then do
    Run.report .endedTwice
    return ([], s)
  else do
    let attempt ← Run.ofChecked (s.attempt.conclude m s.position)
    moveOn P (some s.position) { s with attempt, ended := true }

/-- Pushes elements one after the other, and returns the matches of each push. -/
def pushEach (P : Predicates π α μ ε) :
    List α → Scanner m α → Run π α μ ε (List (List (Match α)) × Scanner m α)
  | [], s => pure ([], s)
  | x :: xs, s => do
    let (found, s) ← s.push P x
    let (later, s) ← pushEach P xs s
    return (found :: later, s)

/-- Pushes elements until one makes a match certain; at the end of the elements the
input has ended. Returns the first match and the number of elements taken,
`before` of which were taken before. -/
def pushUntilMatch (P : Predicates π α μ ε) :
    List α → (before : Nat) → Scanner m α → Run π α μ ε (Option (Match α) × Nat)
  | [], before, s => do
    let (found, _) ← s.close P
    return (found.head?, before)
  | x :: xs, before, s => do
    let (found, s) ← s.push P x
    match found with
    | first :: _ => return (some first, before + 1)
    | [] => pushUntilMatch P xs (before + 1) s

end Scanner

namespace Matcher

/-- A scanner for this matcher. -/
def scanner (m : Matcher π) : Run π α μ ε (Scanner m α) := Run.ofChecked (Scanner.begin m)

/-- All matches in an input that can be walked only once. -/
def allMatchesOnce (m : Matcher π) (P : Predicates π α μ ε) (input : List α) :
    Run π α μ ε (List (Match α)) := do
  let s ← m.scanner
  let (found, s) ← s.pushEach P input
  let (rest, _) ← s.close P
  return found.flatten ++ rest

/-- The leftmost match in an input that can be walked only once, and how many
elements were taken from it. No element is taken after the match has become
certain. -/
def firstMatchOnce (m : Matcher π) (P : Predicates π α μ ε) (input : List α) :
    Run π α μ ε (Option (Match α) × Nat) := do
  let s ← m.scanner
  s.pushUntilMatch P input 0

/-- Is there a match in an input that can be walked only once? -/
def hasMatchOnce (m : Matcher π) (P : Predicates π α μ ε) (input : List α) :
    Run π α μ ε Bool := do
  let (found, _) ← m.firstMatchOnce P input
  return found.isSome

end Matcher

end Motif
