/-
Tallies: records of evaluations in a fixed amount of space. A tally counts the
evaluations and folds the numbers of the predicates into a residue, so that two
records with the same tally very likely name the same predicates in the same
order. Elements are not part of it.
-/

set_option autoImplicit false

namespace Motif

/-- A record of evaluations, condensed. -/
structure Tally where
  count : Nat := 0
  /-- The residue of the predicates' numbers. -/
  hash : Nat := 0
deriving DecidableEq, Repr

namespace Tally

/-- The prime that residues are taken by. -/
def modulus : Nat := 1000000007

/-- A tally with one more evaluation of the predicate of number `handle`. -/
def add (tally : Tally) (handle : Nat) : Tally :=
  ⟨tally.count + 1, (tally.hash * 31 + handle + 1) % modulus⟩

def ofHandles (handles : List Nat) : Tally := handles.foldl add {}

end Tally

end Motif
