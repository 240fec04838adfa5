/-
Machine words. Counts, positions and numbers of states are natural numbers in this
library. Where a number has to fit into a 64-bit word, it is checked against
`wordLimit` before it is used; nothing ever wraps around.
-/

set_option autoImplicit false

namespace Motif

/-- The first number that does not fit into a 64-bit word. -/
def wordLimit : Nat := 0x10000000000000000

/-- A number, if it fits into a word. -/
def word? (n : Nat) : Option Nat := if n < wordLimit then some n else none

theorem word?_of_lt {n : Nat} (h : n < wordLimit) : word? n = some n := if_pos h

theorem word?_of_le {n : Nat} (h : wordLimit ≤ n) : word? n = none :=
  if_neg (Nat.not_lt.2 h)

/-- Nothing but the number itself comes out, and only if it fits. -/
theorem word?_eq_some_iff {n k : Nat} : word? n = some k ↔ n < wordLimit ∧ n = k := by
  by_cases h : n < wordLimit
  · rw [word?_of_lt h, Option.some_inj]
    exact ⟨fun hk => ⟨h, hk⟩, fun hk => hk.2⟩
  · rw [word?_of_le (Nat.not_lt.1 h)]
    exact ⟨(nomatch ·), fun hk => absurd hk.1 h⟩

end Motif
