/-
Ordered sets of automaton states.

The order of a set is the order in which its states were found, and it decides
the order in which predicates are evaluated, so a set is first of all an array.
Asking whether a state is in the set happens for every edge that a search looks
at; a table of bits beside the array answers it without a walk.

The table is as long as its largest state, so it is kept for the numbers below
`tableSize` only. That is more states than an automaton is likely to have. A larger
number is legal, it is looked for in the array, and it costs no more room than any
other.

Array and table must never drift apart. The type says so: no state occurs twice in
the array, and the bits are set for its states below `tableSize` and for nothing
else. The bits are therefore determined by the array, and two sets are equal as
soon as their lists of states are (`StateSet.ext_toList`).
-/
import Motif.Fault
import Motif.Word

set_option autoImplicit false

namespace Motif

/-- The numbers below this one have a bit in the table of a set. -/
def tableSize : Nat := 0x100000

/-- States in the order in which they were inserted, without repetition. -/
structure StateSet where
  /-- The states, oldest first. -/
  states : Array Nat
  /-- Bit `q` is set for each state `q` below `tableSize`. -/
  bits : Nat
  nodup : states.toList.Nodup
  /-- The bits say what is in the array. -/
  testBit_bits : ∀ q, bits.testBit q = decide (q ∈ states.toList ∧ q < tableSize)

namespace StateSet

/-! ## Looking at a set -/

/-- The states, oldest first. -/
def toList (s : StateSet) : List Nat := s.states.toList

def contains (s : StateSet) (q : Nat) : Bool :=
  if q < tableSize then s.bits.testBit q else s.states.contains q

def isEmpty (s : StateSet) : Bool := s.states.isEmpty

def size (s : StateSet) : Nat := s.states.size

instance : Membership Nat StateSet := ⟨fun s q => q ∈ s.toList⟩

theorem mem_iff_mem_toList {s : StateSet} {q : Nat} : q ∈ s ↔ q ∈ s.toList := Iff.rfl

@[simp] theorem contains_eq_decide (s : StateSet) (q : Nat) :
    s.contains q = decide (q ∈ s.toList) := by
  unfold contains
  split
  · rename_i h
    rw [s.testBit_bits q]
    simp [h, toList]
  · simp [toList]

theorem contains_iff {s : StateSet} {q : Nat} : s.contains q = true ↔ q ∈ s.toList := by simp

instance (s : StateSet) (q : Nat) : Decidable (q ∈ s) :=
  decidable_of_iff (s.contains q = true) contains_iff

@[simp] theorem isEmpty_eq (s : StateSet) : s.isEmpty = s.toList.isEmpty := by
  obtain ⟨⟨states⟩, bits, nodup, hbits⟩ := s
  cases states <;> rfl

theorem nodup_toList (s : StateSet) : s.toList.Nodup := s.nodup

/-- A set is determined by its list of states: the bits follow from it. -/
theorem ext_toList {s t : StateSet} (h : s.toList = t.toList) : s = t := by
  obtain ⟨states, bits, nodup, hbits⟩ := s
  obtain ⟨states', bits', nodup', hbits'⟩ := t
  have hstates : states = states' := Array.toList_inj.1 h
  subst hstates
  have : bits = bits' := Nat.eq_of_testBit_eq fun q => by rw [hbits q, hbits' q]
  subst this
  rfl

theorem toList_inj {s t : StateSet} : s.toList = t.toList ↔ s = t :=
  ⟨ext_toList, fun h => h ▸ rfl⟩

/-- Equality compares both representations. -/
instance : DecidableEq StateSet := fun s t =>
  decidable_of_iff (s.states = t.states ∧ s.bits = t.bits) <| by
    obtain ⟨states, bits, nodup, hbits⟩ := s
    obtain ⟨states', bits', nodup', hbits'⟩ := t
    simp

/-! ## Building a set -/

/-- How many places are set aside in advance at most. -/
def maxReserved : Nat := 4096

/-- The set without states, with room for `capacity` of them. The room is only a
hint to the memory and no part of the value, and more than `maxReserved` places are
never set aside before they are needed. -/
def emptyWithCapacity (capacity : Nat) : StateSet where
  states := Array.emptyWithCapacity (min capacity maxReserved)
  bits := 0
  nodup := by simp
  testBit_bits := by simp

def empty : StateSet := emptyWithCapacity 0

instance : EmptyCollection StateSet := ⟨empty⟩

instance : Inhabited StateSet := ⟨empty⟩

@[simp] theorem toList_emptyWithCapacity (capacity : Nat) :
    (emptyWithCapacity capacity).toList = [] := by
  simp [toList, emptyWithCapacity]

@[simp] theorem toList_empty : (∅ : StateSet).toList = [] := toList_emptyWithCapacity 0

/-- The bits after the one of `q` is set, if the table has it. -/
def setBit (bits q : Nat) : Nat := if q < tableSize then bits ||| 1 <<< q else bits

theorem testBit_setBit (bits q r : Nat) :
    (setBit bits q).testBit r = (bits.testBit r || decide (r = q ∧ q < tableSize)) := by
  unfold setBit
  split
  · rename_i h
    rw [Nat.testBit_or, Nat.one_shiftLeft, Nat.testBit_two_pow]
    simp [h, eq_comm]
  · rename_i h
    simp [h]

/-- Adds a state at the end, unless the set has it. -/
def insert (s : StateSet) (q : Nat) : StateSet :=
  if h : s.contains q = true then s else
    { states := s.states.push q
      bits := setBit s.bits q
      nodup := by
        have hq : q ∉ s.toList := fun hq => h (contains_iff.2 hq)
        rw [Array.toList_push, List.nodup_append]
        refine ⟨s.nodup, by simp, fun a ha b hb => ?_⟩
        rw [List.mem_singleton.1 hb]
        exact fun hab => hq (hab ▸ ha)
      testBit_bits := fun r => by
        rw [testBit_setBit, s.testBit_bits r, Array.toList_push, ← Bool.decide_or]
        refine decide_eq_decide.2 ?_
        rw [List.mem_append, List.mem_singleton]
        constructor
        · rintro (⟨hr, hlt⟩ | ⟨rfl, hlt⟩)
          · exact ⟨Or.inl hr, hlt⟩
          · exact ⟨Or.inr rfl, hlt⟩
        · rintro ⟨hr | rfl, hlt⟩
          · exact Or.inl ⟨hr, hlt⟩
          · exact Or.inr ⟨rfl, hlt⟩ }

theorem toList_insert (s : StateSet) (q : Nat) :
    (s.insert q).toList = if q ∈ s.toList then s.toList else s.toList ++ [q] := by
  unfold insert
  by_cases h : q ∈ s.toList
  · simp [h]
  · rw [dif_neg (by simpa using h), if_neg h]
    exact Array.toList_push

@[simp] theorem toList_insert_of_mem {s : StateSet} {q : Nat} (h : q ∈ s.toList) :
    (s.insert q).toList = s.toList := by simp [toList_insert, h]

@[simp] theorem toList_insert_of_not_mem {s : StateSet} {q : Nat} (h : q ∉ s.toList) :
    (s.insert q).toList = s.toList ++ [q] := by simp [toList_insert, h]

@[simp] theorem mem_toList_insert {s : StateSet} {q r : Nat} :
    r ∈ (s.insert q).toList ↔ r ∈ s.toList ∨ r = q := by
  rw [toList_insert]
  split
  · constructor
    · exact Or.inl
    · rintro (h | rfl) <;> assumption
  · simp

/-- Adds a state at the end, unless the set has it, and tells whether it was
added. -/
def insertNew (s : StateSet) (q : Nat) : Bool × StateSet :=
  (!s.contains q, s.insert q)

/-- The states of a list, each at its first occurrence. -/
def ofList (states : List Nat) : StateSet := states.foldl insert ∅

@[simp] theorem ofList_nil : ofList [] = ∅ := rfl

@[simp] theorem toList_ofList_singleton (q : Nat) : (ofList [q]).toList = [q] :=
  toList_insert_of_not_mem (s := ∅) (by simp)

theorem mem_toList_foldl_insert {states : List Nat} {s : StateSet} {q : Nat} :
    q ∈ (states.foldl insert s).toList ↔ q ∈ s.toList ∨ q ∈ states := by
  induction states generalizing s with
  | nil => simp
  | cons r states ih =>
    rw [List.foldl_cons, ih, mem_toList_insert, List.mem_cons, or_assoc]

/-- The set of a list has the states of the list. -/
@[simp] theorem mem_toList_ofList {states : List Nat} {q : Nat} :
    q ∈ (ofList states).toList ↔ q ∈ states := by
  rw [ofList, mem_toList_foldl_insert]
  simp

/-- The set of numbers that nobody has looked at yet. A number is refused if a
table that reaches up to it would have more entries than a word can count, which
is true of the largest word; no automaton has a state of that number. -/
def ofNumbers (numbers : List Nat) : Except Fault StateSet :=
  match numbers.find? fun q => (word? (q + 1)).isNone with
  | some q => .error (.noSuchState q)
  | none => .ok (ofList numbers)

/-- The set without states again, whatever was in it. -/
def clear (_ : StateSet) : StateSet := empty

@[simp] theorem toList_clear (s : StateSet) : s.clear.toList = [] := toList_empty

end StateSet

end Motif
