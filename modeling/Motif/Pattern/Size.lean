/-
How many states the automaton of a pattern has, before it is laid out.

Bounded repetitions are laid out by copying, so a small tree can need a huge
automaton. `stateCount` is the exact number. `checkedStateCount` is what a budget
is compared with: it works in 64-bit words and gives up as soon as any
subpattern, also one that is copied zero times, does not fit into a word.
-/
import Motif.Pattern.Basic
import Motif.Word

set_option autoImplicit false

namespace Motif

namespace Pattern

variable {π : Type}

/-- How many copies of its child a repetition lays out: enough for the larger of
the bounds, or one more than the lower bound for a loop. -/
def copies (min : Nat) : Option Nat → Nat
  | some max => Nat.max min max
  | none => min + 1

/-! ## The exact count -/

mutual
/-- The number of states in the layout of a pattern. -/
def stateCount : Pattern π → Nat
  | predicate _ => 2
  | any => 2
  | sequence children => sequenceCount children
  | repetition child min max _ => 2 + copies min max * stateCount child
  | alternation left right => 2 + stateCount left + stateCount right
  | anchor _ => 2

/-- The number of states in the layout of a sequence. The empty sequence needs
an entry and an exit; any other borrows them from its first and last child. -/
def sequenceCount : List (Pattern π) → Nat
  | [] => 2
  | [child] => stateCount child
  | child :: next :: rest => stateCount child + sequenceCount (next :: rest)
end

/-- Every layout has at least an entry and an exit. -/
theorem two_le_stateCount : (p : Pattern π) → 2 ≤ p.stateCount
  | predicate _ => by simp [stateCount]
  | any => by simp [stateCount]
  | sequence [] => by simp [stateCount, sequenceCount]
  | sequence [child] => by simpa [stateCount, sequenceCount] using two_le_stateCount child
  | sequence (child :: next :: rest) => by
    have := two_le_stateCount child
    simp only [stateCount, sequenceCount]
    omega
  | repetition child min max greedy => by simp [stateCount]
  | alternation left right => by simp only [stateCount]; omega
  | anchor _ => by simp [stateCount]

/-! ## The count in machine words -/

mutual
/-- The number of states, computed bottom-up in words. There is no answer as soon
as the count of one subpattern overflows, even if a repetition would then copy
that subpattern zero times. -/
def checkedStateCount : Pattern π → Option Nat
  | predicate _ => some 2
  | any => some 2
  | sequence [] => some 2
  | sequence (child :: rest) => checkedSum (child :: rest)
  | repetition child min max _ => do word? (2 + copies min max * (← checkedStateCount child))
  | alternation left right => do
    word? (2 + (← checkedStateCount left) + (← checkedStateCount right))
  | anchor _ => some 2

/-- The sum of the counts of a list of patterns, computed in words. -/
def checkedSum : List (Pattern π) → Option Nat
  | [] => some 0
  | child :: rest => do word? ((← checkedStateCount child) + (← checkedSum rest))
end

/-- Does the pattern's automaton fit into `budget` states? -/
def fits (budget : Nat) (p : Pattern π) : Bool :=
  match p.checkedStateCount with
  | some n => n ≤ budget
  | none => false

end Pattern

end Motif
