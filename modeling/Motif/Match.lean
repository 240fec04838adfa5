/-
Matches, and what a scan over the input makes of an attempt.

An attempt ends with the length of its best match or with none. Both kinds of
search, over input that is all there and over input that arrives, go on from
there in the same way: a match that is not empty is taken and the scan moves on
behind it; anything else is passed over and the scan moves on by one element
(`stride`). The scan therefore always moves on, and it never takes an empty
match.
-/
import Motif.Fault

set_option autoImplicit false

namespace Motif

/-- A match that is not empty. Both positions belong to it. -/
structure Match (α : Type) where
  /-- The position of the first matched element. -/
  first : Nat
  /-- The position of the last matched element. -/
  last : Nat
  elements : List α
deriving DecidableEq, Repr

/-- How far the scan moves on after an attempt with the given best length. -/
def stride : Option Nat → Nat
  | some (n + 1) => n + 1
  | some 0 => 1
  | none => 1

@[simp] theorem stride_none : stride none = 1 := rfl

@[simp] theorem stride_some_zero : stride (some 0) = 1 := rfl

@[simp] theorem stride_some_succ (n : Nat) : stride (some (n + 1)) = n + 1 := rfl

theorem one_le_stride (best : Option Nat) : 1 ≤ stride best := by
  unfold stride
  split <;> omega

namespace Match

variable {α : Type}

/-- The match that an attempt at `start` has found, if it is not empty. `ahead` are
the elements from `start` on; a match that reaches past them is a fault. -/
def taken? (start : Nat) (ahead : List α) :
    (best : Option Nat) → Except Fault (Option (Match α))
  | some (n + 1) =>
    if n + 1 ≤ ahead.length then .ok (some ⟨start, start + n, ahead.take (n + 1)⟩)
    else .error (.matchPastEnd start (n + 1))
  | some 0 => .ok none
  | none => .ok none

@[simp] theorem taken?_none (start : Nat) (ahead : List α) :
    taken? start ahead none = .ok none := rfl

@[simp] theorem taken?_some_zero (start : Nat) (ahead : List α) :
    taken? start ahead (some 0) = .ok none := rfl

/-- A match that is taken begins where the attempt began, holds the elements from
there on, and is as long as the scan moves on. -/
theorem of_taken?_eq_some {start : Nat} {ahead : List α} {best : Option Nat} {found : Match α}
    (h : taken? start ahead best = .ok (some found)) :
    best = some (stride best) ∧ stride best ≤ ahead.length ∧ found.first = start ∧
      found.last + 1 = start + stride best ∧ found.elements = ahead.take (stride best) := by
  unfold taken? at h
  split at h
  · rename_i n
    split at h
    · rename_i hle
      cases h
      exact ⟨rfl, hle, rfl, rfl, rfl⟩
    · cases h
  · cases h
  · cases h

end Match

end Motif
