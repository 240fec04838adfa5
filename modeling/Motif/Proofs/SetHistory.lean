/-
Ordered sets are lists without repetition.

What can be seen of a set depends on its whole history: sets are made with any room or
with none, copied, filled and cleared, each at any time, and what was done to one must
not show in another. The histories are therefore data (`SetRequest`), and one definition
runs them on any kind of set (`SetOps.run`): on lists, which are the specification, on
a set beside a table (`IndexedSet`), and on the sets that searches use (`StateSet`).

A kind of set refines lists if every operation keeps an invariant and does to the list
of the states what the operation on lists does (`SetOps.Refines`). One step of a history
then keeps the invariant of all sets and the correspondence with the lists, and so does
the whole history. What can be asked of a set is read off the invariant. For a set beside
a table it says that the table has the states and nothing else; with it, equality, which
compares the tables too, is equality of the states.
-/
import Motif.StateSet
import Motif.IndexedSet

set_option autoImplicit false

namespace Motif

variable {σ τ : Type}

/-! ## Histories -/

/-- The operations of a set that keeps the order of insertion, and what can be asked of it. -/
structure SetOps (σ : Type) where
  withCapacity : Nat → σ
  default : σ
  copy : σ → σ
  clear : σ → σ
  /-- Adds a state and tells whether it was added. -/
  insert : σ → Nat → Bool × σ
  contains : σ → Nat → Bool
  isEmpty : σ → Bool
  same : σ → σ → Bool
  /-- The states in the order in which they were added. -/
  toList : σ → List Nat

/-- What can be done to a number of sets. A set is named by when it was made, the oldest
one by zero. -/
inductive SetRequest where
  /-- Makes an empty set with room for `capacity` states. -/
  | withCapacity (capacity : Nat)
  /-- Makes an empty set. -/
  | default
  /-- Makes a set that is equal to another one. -/
  | copy (slot : Nat)
  | clear (slot : Nat)
  | insert (slot q : Nat)
deriving DecidableEq, Repr

namespace SetOps

/-- What a request makes of the sets, and the answer to an insertion. A request that names
no set does nothing. -/
def step (ops : SetOps σ) (sets : List σ) : SetRequest → List σ × Option Bool
  | .withCapacity capacity => (sets ++ [ops.withCapacity capacity], none)
  | .default => (sets ++ [ops.default], none)
  | .copy slot =>
    match sets[slot]? with
    | some s => (sets ++ [ops.copy s], none)
    | none => (sets, none)
  | .clear slot =>
    match sets[slot]? with
    | some s => (sets.set slot (ops.clear s), none)
    | none => (sets, none)
  | .insert slot q =>
    match sets[slot]? with
    | some s => (sets.set slot (ops.insert s q).2, some (ops.insert s q).1)
    | none => (sets, none)

/-- The sets after a history and the answers to its insertions. -/
def run (ops : SetOps σ) : List SetRequest → List σ → List σ × List Bool
  | [], sets => (sets, [])
  | request :: rest, sets =>
    let next := ops.step sets request
    let final := ops.run rest next.1
    (final.1, next.2.toList ++ final.2)

/-- The sets that a history makes out of nothing. -/
def made (ops : SetOps σ) (history : List SetRequest) : List σ := (ops.run history []).1

/-- What a history is answered, insertion by insertion. -/
def answers (ops : SetOps σ) (history : List SetRequest) : List Bool := (ops.run history []).2

/-- Lists without repetition. -/
def plain : SetOps (List Nat) where
  withCapacity _ := []
  default := []
  copy := id
  clear _ := []
  insert states q := if q ∈ states then (false, states) else (true, states ++ [q])
  contains states q := decide (q ∈ states)
  isEmpty states := states.isEmpty
  same states states' := decide (states = states')
  toList := id

/-! ## Refinement of lists -/

/-- Under an invariant, each operation does what the operation on lists does, and what is
asked of a set can be asked of its list. -/
structure Refines (ops : SetOps σ) (inv : σ → Prop) : Prop where
  withCapacity : ∀ capacity,
    inv (ops.withCapacity capacity) ∧ ops.toList (ops.withCapacity capacity) = []
  default : inv ops.default ∧ ops.toList ops.default = []
  copy : ∀ s, inv s → inv (ops.copy s) ∧ ops.toList (ops.copy s) = ops.toList s
  clear : ∀ s, inv s → inv (ops.clear s) ∧ ops.toList (ops.clear s) = []
  insert : ∀ s q, inv s → inv (ops.insert s q).2 ∧
    (ops.insert s q).1 = (plain.insert (ops.toList s) q).1 ∧
    ops.toList (ops.insert s q).2 = (plain.insert (ops.toList s) q).2
  nodup : ∀ s, inv s → (ops.toList s).Nodup
  contains : ∀ s q, inv s → (ops.contains s q = true ↔ q ∈ ops.toList s)
  isEmpty : ∀ s, inv s → (ops.isEmpty s = true ↔ ops.toList s = [])
  same : ∀ s t, inv s → inv t → (ops.same s t = true ↔ ops.toList s = ops.toList t)

section Refinement

variable {ops : SetOps σ} {inv : σ → Prop}

/-- One request keeps the invariant and does the same to the lists. -/
theorem Refines.step (h : Refines ops inv) {sets : List σ} (hsets : ∀ s ∈ sets, inv s)
    (request : SetRequest) :
    (∀ s ∈ (ops.step sets request).1, inv s) ∧
      (ops.step sets request).1.map ops.toList =
        (plain.step (sets.map ops.toList) request).1 ∧
      (ops.step sets request).2 = (plain.step (sets.map ops.toList) request).2 := by
  -- A request puts one more set behind the others, or another set in the place of one.
  have happend : ∀ s, inv s → ∀ t ∈ sets ++ [s], inv t := by
    intro s hs t ht
    rcases List.mem_append.1 ht with ht | ht
    · exact hsets t ht
    · rw [List.mem_singleton.1 ht]
      exact hs
  have hset : ∀ slot s, inv s → ∀ t ∈ sets.set slot s, inv t := by
    intro slot s hs t ht
    rcases List.mem_or_eq_of_mem_set ht with ht | rfl
    · exact hsets t ht
    · exact hs
  cases request with
  | withCapacity capacity =>
    obtain ⟨hinv, hlist⟩ := h.withCapacity capacity
    refine ⟨happend _ hinv, ?_, rfl⟩
    simp [SetOps.step, hlist, plain]
  | default =>
    obtain ⟨hinv, hlist⟩ := h.default
    refine ⟨happend _ hinv, ?_, rfl⟩
    simp [SetOps.step, hlist, plain]
  | copy slot =>
    simp only [SetOps.step, List.getElem?_map]
    cases hslot : sets[slot]? with
    | none => exact ⟨hsets, rfl, rfl⟩
    | some s =>
      obtain ⟨hinv, hlist⟩ := h.copy s (hsets s (List.mem_of_getElem? hslot))
      refine ⟨happend _ hinv, ?_, rfl⟩
      simp [hlist, plain]
  | clear slot =>
    simp only [SetOps.step, List.getElem?_map]
    cases hslot : sets[slot]? with
    | none => exact ⟨hsets, rfl, rfl⟩
    | some s =>
      obtain ⟨hinv, hlist⟩ := h.clear s (hsets s (List.mem_of_getElem? hslot))
      refine ⟨hset slot _ hinv, ?_, rfl⟩
      simp [List.map_set, hlist, plain]
  | insert slot q =>
    simp only [SetOps.step, List.getElem?_map]
    cases hslot : sets[slot]? with
    | none => exact ⟨hsets, rfl, rfl⟩
    | some s =>
      obtain ⟨hinv, hanswer, hlist⟩ := h.insert s q (hsets s (List.mem_of_getElem? hslot))
      refine ⟨hset slot _ hinv, ?_, ?_⟩
      · simp [List.map_set, hlist]
      · simp [hanswer]

/-- So does a whole history. -/
theorem Refines.run (h : Refines ops inv) (history : List SetRequest) {sets : List σ}
    (hsets : ∀ s ∈ sets, inv s) :
    (∀ s ∈ (ops.run history sets).1, inv s) ∧
      (ops.run history sets).1.map ops.toList =
        (plain.run history (sets.map ops.toList)).1 ∧
      (ops.run history sets).2 = (plain.run history (sets.map ops.toList)).2 := by
  induction history generalizing sets with
  | nil => exact ⟨hsets, rfl, rfl⟩
  | cons request rest ih =>
    obtain ⟨hnext, hlists, hanswer⟩ := h.step hsets request
    obtain ⟨hfinal, hlists', hanswers⟩ := ih hnext
    rw [hlists] at hlists' hanswers
    refine ⟨hfinal, hlists', ?_⟩
    show _ ++ _ = _ ++ _
    rw [hanswer, hanswers]

end Refinement

/-- The sets of a history are lists without repetition, to whoever asks them. -/
structure KeepsLists (ops : SetOps σ) (history : List SetRequest) : Prop where
  /-- No state occurs twice. -/
  nodup : ∀ s ∈ ops.made history, (ops.toList s).Nodup
  contains : ∀ s ∈ ops.made history, ∀ q, ops.contains s q = true ↔ q ∈ ops.toList s
  isEmpty : ∀ s ∈ ops.made history, ops.isEmpty s = true ↔ ops.toList s = []
  /-- A state is added if it was absent, and only then. -/
  insert_iff : ∀ s ∈ ops.made history, ∀ q, (ops.insert s q).1 = true ↔ q ∉ ops.toList s
  /-- What is added stands at the end. -/
  insert_absent : ∀ s ∈ ops.made history, ∀ q ∉ ops.toList s,
    ops.toList (ops.insert s q).2 = ops.toList s ++ [q]
  /-- If nothing is added, nothing is changed. -/
  insert_present : ∀ s ∈ ops.made history, ∀ q ∈ ops.toList s,
    ops.toList (ops.insert s q).2 = ops.toList s ∧ ops.same (ops.insert s q).2 s = true ∧
      ∀ r, ops.contains (ops.insert s q).2 r = ops.contains s r
  /-- Equality is equality of the states and of their order. -/
  same : ∀ s ∈ ops.made history, ∀ t ∈ ops.made history,
    ops.same s t = true ↔ ops.toList s = ops.toList t
  /-- The history makes the same lists when it is run on lists. -/
  lists : (ops.made history).map ops.toList = plain.made history
  answers : ops.answers history = plain.answers history

theorem Refines.keepsLists {ops : SetOps σ} {inv : σ → Prop} (h : Refines ops inv)
    (history : List SetRequest) : ops.KeepsLists history := by
  obtain ⟨hinv, hlists, hanswers⟩ :=
    h.run history (show ∀ s ∈ ([] : List σ), inv s from fun s hs => absurd hs List.not_mem_nil)
  refine ⟨fun s hs => h.nodup s (hinv s hs), fun s hs q => h.contains s q (hinv s hs),
    fun s hs => h.isEmpty s (hinv s hs), ?_, ?_, ?_,
    fun s hs t ht => h.same s t (hinv s hs) (hinv t ht), hlists, hanswers⟩
  · intro s hs q
    obtain ⟨-, hanswer, -⟩ := h.insert s q (hinv s hs)
    rw [hanswer]
    by_cases hq : q ∈ ops.toList s <;> simp [plain, hq]
  · intro s hs q hq
    obtain ⟨-, -, hlist⟩ := h.insert s q (hinv s hs)
    rw [hlist]
    simp [plain, hq]
  · intro s hs q hq
    obtain ⟨hnext, -, hlist⟩ := h.insert s q (hinv s hs)
    have hsame : ops.toList (ops.insert s q).2 = ops.toList s := by
      rw [hlist]
      simp [plain, hq]
    refine ⟨hsame, (h.same _ s hnext (hinv s hs)).2 hsame, fun r => ?_⟩
    rw [Bool.eq_iff_iff, h.contains _ r hnext, h.contains s r (hinv s hs), hsame]

end SetOps

/-! ## A set beside a table -/

namespace IndexedSet

variable {T : Table τ} {s t : IndexedSet τ}

/-- The operations on a set beside a table. -/
def ops (T : Table τ) : SetOps (IndexedSet τ) where
  withCapacity := withCapacity T
  default := default T
  copy := copy T
  clear := clear T
  insert := insert T
  contains := contains T
  isEmpty := isEmpty
  same := same T
  toList s := s.states.toList

/-- States and table are in step: no state occurs twice, and the table has the states and
nothing else. -/
structure InStep (T : Table τ) (s : IndexedSet τ) : Prop where
  nodup : s.states.toList.Nodup
  contains_iff : ∀ q, T.contains s.present q = true ↔ q ∈ s.states.toList

/-- A set without states is in step with any table that is empty. -/
theorem inStep_empty {table : τ} (h : ∀ q, T.contains table q = false) : InStep T ⟨#[], table⟩ where
  nodup := List.nodup_nil
  contains_iff q := by simp [h q]

theorem InStep.copy (hT : T.Lawful) (h : InStep T s) : InStep T (copy T s) where
  nodup := h.nodup
  contains_iff q := by
    show T.contains (T.copy s.present) q = true ↔ _
    rw [hT.contains_copy]
    exact h.contains_iff q

/-- The table answers for the states whether one is new. -/
theorem InStep.insert_eq (hT : T.Lawful) (h : InStep T s) (q : Nat) :
    insert T s q =
      if q ∈ s.states.toList then (false, ⟨s.states, (T.insert s.present q).2⟩)
      else (true, ⟨s.states.push q, (T.insert s.present q).2⟩) := by
  have hnew : (T.insert s.present q).1 = !T.contains s.present q := hT.insert_fst _ q
  by_cases hq : q ∈ s.states.toList
  · rw [(h.contains_iff q).2 hq] at hnew
    simp [IndexedSet.insert, hnew, hq]
  · rw [Bool.eq_false_iff.2 fun hc => hq ((h.contains_iff q).1 hc)] at hnew
    simp [IndexedSet.insert, hnew, hq]

theorem InStep.insert (hT : T.Lawful) (h : InStep T s) (q : Nat) :
    InStep T (insert T s q).2 := by
  have hcontains : ∀ r, T.contains (T.insert s.present q).2 r = true ↔
      r = q ∨ r ∈ s.states.toList := by
    intro r
    rw [hT.contains_insert, Bool.or_eq_true, decide_eq_true_iff, h.contains_iff]
  rw [h.insert_eq hT]
  split
  · rename_i hq
    refine ⟨h.nodup, fun r => (hcontains r).trans ?_⟩
    constructor
    · rintro (rfl | hr)
      · exact hq
      · exact hr
    · exact Or.inr
  · rename_i hq
    constructor
    · rw [Array.toList_push, List.nodup_append]
      refine ⟨h.nodup, by simp, fun a ha b hb => ?_⟩
      rw [List.mem_singleton.1 hb]
      exact fun hab => hq (hab ▸ ha)
    · intro r
      rw [Array.toList_push, List.mem_append, List.mem_singleton, or_comm]
      exact hcontains r

/-- Of two sets that are in step, equal states have equal tables. -/
theorem InStep.same_iff (hT : T.Lawful) (hs : InStep T s) (ht : InStep T t) :
    same T s t = true ↔ s.states.toList = t.states.toList := by
  rw [same, Bool.and_eq_true, beq_iff_eq, hT.same_iff, Array.toList_inj]
  constructor
  · exact fun h => h.1
  · intro h
    refine ⟨h, fun q => ?_⟩
    rw [Bool.eq_iff_iff, hs.contains_iff, ht.contains_iff, h]

/-- **A set beside a table refines lists.** -/
theorem refines (hT : T.Lawful) : (ops T).Refines (InStep T) where
  withCapacity capacity := by
    refine ⟨?_, by simp [ops, withCapacity]⟩
    have hempty : withCapacity T capacity = ⟨#[], T.withCapacity capacity⟩ := by
      simp [withCapacity]
    show InStep T (withCapacity T capacity)
    rw [hempty]
    exact inStep_empty (hT.contains_withCapacity capacity)
  default := ⟨inStep_empty hT.contains_default, rfl⟩
  copy s h := ⟨h.copy hT, rfl⟩
  clear s _ := ⟨inStep_empty (hT.contains_clear s.present), rfl⟩
  insert s q h := by
    refine ⟨h.insert hT q, ?_⟩
    show (IndexedSet.insert T s q).1 = _ ∧ (IndexedSet.insert T s q).2.states.toList = _
    rw [h.insert_eq hT]
    by_cases hq : q ∈ s.states.toList <;> simp [SetOps.plain, ops, hq]
  nodup s h := h.nodup
  contains s q h := h.contains_iff q
  isEmpty s _ := by simp [ops, isEmpty]
  same s t hs ht := hs.same_iff hT ht

end IndexedSet

/-! ## The sets that searches use -/

namespace StateSet

/-- The operations on a set whose table is kept in step by its type. -/
def ops : SetOps StateSet where
  withCapacity := emptyWithCapacity
  default := empty
  copy := id
  clear := clear
  insert := insertNew
  contains := contains
  isEmpty := isEmpty
  same s t := decide (s = t)
  toList := toList

theorem refines : ops.Refines fun _ => True where
  withCapacity capacity := ⟨trivial, toList_emptyWithCapacity capacity⟩
  default := ⟨trivial, toList_empty⟩
  copy _ _ := ⟨trivial, rfl⟩
  clear s _ := ⟨trivial, toList_clear s⟩
  insert s q _ := by
    refine ⟨trivial, ?_⟩
    show (!s.contains q) = _ ∧ (s.insert q).toList = _
    rw [toList_insert, contains_eq_decide]
    by_cases hq : q ∈ s.toList <;> simp [SetOps.plain, ops, hq]
  nodup s _ := s.nodup_toList
  contains s q _ := contains_iff
  isEmpty s _ := by simp [ops]
  same s t _ _ := by
    show decide (s = t) = true ↔ s.toList = t.toList
    rw [decide_eq_true_iff, toList_inj]

end StateSet

/-! ## Bits as a table -/

namespace Bits

theorem lt_length_of_getD {bits : List Bool} {q : Nat} (h : bits.getD q false = true) :
    q < bits.length := by
  by_cases hlt : q < bits.length
  · exact hlt
  · rw [List.getD_eq_getElem?_getD, List.getElem?_eq_none (Nat.not_lt.1 hlt)] at h
    cases h

theorem getD_replicate (n q : Nat) : (List.replicate n false).getD q false = false := by
  rw [List.getD_eq_getElem?_getD, List.getElem?_replicate]
  split <;> rfl

theorem mem_members {bits : List Bool} {q : Nat} :
    q ∈ members bits ↔ bits.getD q false = true := by
  rw [members, List.mem_filter, List.mem_range]
  exact ⟨fun h => h.2, fun h => ⟨lt_length_of_getD h, h⟩⟩

/-- How many bits there are behind the last one that is set makes no difference. -/
theorem members_eq_filter {bits : List Bool} {n : Nat} (h : bits.length ≤ n) :
    members bits = (List.range n).filter fun q => bits.getD q false := by
  obtain ⟨k, rfl⟩ := Nat.exists_eq_add_of_le h
  have hbehind : ((List.range k).map (bits.length + ·)).filter
      (fun q => bits.getD q false) = [] := by
    rw [List.filter_eq_nil_iff]
    intro q hq hset
    obtain ⟨i, -, rfl⟩ := List.mem_map.1 hq
    have := lt_length_of_getD hset
    omega
  rw [List.range_add, List.filter_append, hbehind, List.append_nil, members]

/-- Two rows have the same members if they have the same bits, not counting the room. -/
theorem members_inj {bits bits' : List Bool} :
    members bits = members bits' ↔ ∀ q, bits.getD q false = bits'.getD q false := by
  constructor
  · intro h q
    rw [Bool.eq_iff_iff, ← mem_members, ← mem_members, h]
  · intro h
    rw [members_eq_filter (Nat.le_max_left bits.length bits'.length),
      members_eq_filter (Nat.le_max_right bits.length bits'.length)]
    simp only [h]

theorem getD_set (bits : List Bool) (q r : Nat) :
    (set bits q).getD r false = (decide (r = q) || bits.getD r false) := by
  rw [set, List.getD_eq_getElem?_getD, List.getElem?_set]
  by_cases hr : q = r
  · have hroom : q < (bits ++ List.replicate (q + 1 - bits.length) false).length := by
      rw [List.length_append, List.length_replicate]
      omega
    rw [if_pos hr, if_pos hroom, decide_eq_true hr.symm]
    rfl
  · rw [if_neg hr, decide_eq_false (Ne.symm hr), Bool.false_or, ← List.getD_eq_getElem?_getD]
    by_cases hlt : r < bits.length
    · rw [List.getD_eq_getElem?_getD, List.getElem?_append_left hlt, List.getD_eq_getElem?_getD]
    · have hold : bits.getD r false = false := Bool.eq_false_iff.2 fun h =>
        hlt (lt_length_of_getD h)
      rw [hold, List.getD_eq_getElem?_getD, List.getElem?_append_right (Nat.not_lt.1 hlt),
        ← List.getD_eq_getElem?_getD, getD_replicate]

end Bits

/-- Bits in a row are a finite set of numbers. -/
theorem lawful_bitTable : bitTable.Lawful where
  contains_withCapacity capacity q := Bits.getD_replicate capacity q
  contains_default _ := rfl
  contains_copy _ _ := rfl
  insert_fst bits q := by
    cases h : bits.getD q false <;> simp only [bitTable, h] <;> rfl
  contains_insert bits q r := by
    show (if bits.getD q false then _ else _ : Bool × List Bool).2.getD r false = _
    split
    · rename_i hq
      by_cases hr : r = q
      · rw [hr, hq, decide_eq_true rfl]
        rfl
      · rw [decide_eq_false hr, Bool.false_or]
        rfl
    · exact Bits.getD_set bits q r
  contains_clear bits q := Bits.getD_replicate bits.length q
  same_iff bits bits' := by
    show (Bits.members bits == Bits.members bits') = true ↔ _
    rw [beq_iff_eq, Bits.members_inj]
    rfl

/-! ## All histories -/

/-- **Sets are lists without repetition, whatever was done to them.** Whatever table a set
has beside its states, and however many sets a history makes, fills, copies and clears: in
every set the table has the states and nothing else; no state occurs twice; a state is added
exactly if it was absent, and then at the end, and otherwise nothing changes; what is asked
of a set is answered as by the list of its states; and two sets are equal exactly if their
states are, in the same order. The sets that searches use are the same lists after the same
history, and give the same answers. -/
theorem history_keepsLists {T : Table τ} (hT : T.Lawful) (history : List SetRequest) :
    (IndexedSet.ops T).KeepsLists history ∧
      (∀ s ∈ (IndexedSet.ops T).made history, ∀ q,
        T.contains s.present q = true ↔ q ∈ s.states.toList) ∧
      StateSet.ops.KeepsLists history ∧
      StateSet.ops.answers history = (IndexedSet.ops T).answers history ∧
      (StateSet.ops.made history).map StateSet.toList =
        ((IndexedSet.ops T).made history).map fun s => s.states.toList := by
  have hindexed := (IndexedSet.refines hT).keepsLists history
  have hown := StateSet.refines.keepsLists history
  refine ⟨hindexed, fun s hs q => hindexed.contains s hs q, hown, ?_, ?_⟩
  · rw [hown.answers, hindexed.answers]
  · exact hown.lists.trans hindexed.lists.symm

/-- A set with room for four states is filled, copied and cleared, and the copy grows past
that room. What is left of it is equal to a set that never had any room, although its table
is longer. -/
theorem history_keepsLists_copyThenClear :
    bitTable.Lawful ∧
      let history : List SetRequest :=
        [.withCapacity 4, .insert 0 3, .insert 0 0, .insert 0 3, .insert 0 2, .copy 0,
          .insert 1 9, .clear 0, .insert 1 0, .default]
      let sets := (IndexedSet.ops bitTable).made history
      sets.map (fun s => s.states.toList) = [[], [3, 0, 2, 9], []] ∧
        sets.map (fun s => s.present.length) = [4, 10, 0] ∧
        (IndexedSet.ops bitTable).answers history = [true, true, false, true, true, false] ∧
        (∀ s ∈ sets, ∀ t ∈ sets,
          s.same bitTable t = true ↔ s.states.toList = t.states.toList) ∧
        (∀ s ∈ sets, ∀ q, bitTable.contains s.present q = true ↔ q ∈ s.states.toList) := by
  refine ⟨lawful_bitTable, ?_⟩
  intro history sets
  obtain ⟨hkeeps, htable, -⟩ := history_keepsLists lawful_bitTable history
  have hlists : sets.map (fun s => s.states.toList) = SetOps.plain.made history := hkeeps.lists
  have hanswers := hkeeps.answers
  refine ⟨hlists.trans (by decide), by decide, hanswers.trans (by decide), hkeeps.same, htable⟩

end Motif
