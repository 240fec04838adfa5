/-
Ordered sets of states beside a table that is not our own.

The sets that searches use keep their table in step with their states by their type
(`StateSet`). Here is the same set as two parts that know nothing of each other: the
states in the order in which they came, and a table that tells quickly whether a state is
among them. Each operation has to change both, and equality compares both.

The table is a parameter, with the operations that a library of bit sets has. What is
relied on is that it is a finite set of numbers (`Table.Lawful`): how much room it has,
whether clearing gives the room back and in what form the members are kept is its own
affair, and its equality does not see it.
-/

set_option autoImplicit false

namespace Motif

/-- The operations of a table of numbers. -/
structure Table (τ : Type) where
  /-- The empty table with room for the numbers below a capacity. -/
  withCapacity : Nat → τ
  default : τ
  copy : τ → τ
  contains : τ → Nat → Bool
  /-- Adds a number, and tells whether it was new. -/
  insert : τ → Nat → Bool × τ
  clear : τ → τ
  /-- Equality of tables. -/
  same : τ → τ → Bool

/-- The table is a finite set of numbers, and equal tables have equal members. -/
structure Table.Lawful {τ : Type} (T : Table τ) : Prop where
  contains_withCapacity : ∀ capacity q, T.contains (T.withCapacity capacity) q = false
  contains_default : ∀ q, T.contains T.default q = false
  contains_copy : ∀ t q, T.contains (T.copy t) q = T.contains t q
  insert_fst : ∀ t q, (T.insert t q).1 = !T.contains t q
  contains_insert : ∀ t q r, T.contains (T.insert t q).2 r = (decide (r = q) || T.contains t r)
  contains_clear : ∀ t q, T.contains (T.clear t) q = false
  same_iff : ∀ t u, T.same t u = true ↔ ∀ q, T.contains t q = T.contains u q

/-- States in the order in which they were inserted, and a table of them. -/
structure IndexedSet (τ : Type) where
  /-- The states, oldest first. -/
  states : Array Nat
  /-- The table that is asked for membership. -/
  present : τ

namespace IndexedSet

variable {τ : Type} (T : Table τ)

/-- The set without states, with room for `capacity` of them. -/
def withCapacity (capacity : Nat) : IndexedSet τ :=
  ⟨Array.emptyWithCapacity capacity, T.withCapacity capacity⟩

def default : IndexedSet τ := ⟨#[], T.default⟩

def copy (s : IndexedSet τ) : IndexedSet τ := ⟨s.states, T.copy s.present⟩

def contains (s : IndexedSet τ) (q : Nat) : Bool := T.contains s.present q

def isEmpty (s : IndexedSet τ) : Bool := s.states.isEmpty

/-- Adds a state at the end if the table says that it is new, and tells whether it did. -/
def insert (s : IndexedSet τ) (q : Nat) : Bool × IndexedSet τ :=
  let (new, present) := T.insert s.present q
  if new then (true, ⟨s.states.push q, present⟩) else (false, ⟨s.states, present⟩)

def clear (s : IndexedSet τ) : IndexedSet τ := ⟨#[], T.clear s.present⟩

/-- Equality of sets: the same states in the same order, and the same table. -/
def same (s t : IndexedSet τ) : Bool := s.states == t.states && T.same s.present t.present

end IndexedSet

/-! ## A table that grows -/

namespace Bits

/-- The numbers whose bit is set, in ascending order. -/
def members (bits : List Bool) : List Nat :=
  (List.range bits.length).filter fun q => bits.getD q false

/-- Sets a bit, with as many new bits in front of it as are missing. -/
def set (bits : List Bool) (q : Nat) : List Bool :=
  (bits ++ List.replicate (q + 1 - bits.length) false).set q true

end Bits

/-- Bits in a row, which become more when a number is inserted that has none. Clearing
keeps them. -/
def bitTable : Table (List Bool) where
  withCapacity capacity := List.replicate capacity false
  default := []
  copy := id
  contains bits q := bits.getD q false
  insert bits q := if bits.getD q false then (false, bits) else (true, Bits.set bits q)
  clear bits := List.replicate bits.length false
  same bits bits' := Bits.members bits == Bits.members bits'

end Motif
