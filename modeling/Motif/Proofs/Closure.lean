/-
What a closure contains, and how it depends on the length of the input.

A state is in the closure of the seeds if and only if silent edges lead to it from
a seed, all states on the way being open (`mem_closure_iff`). The search with its
stack is compared with that relation by two inclusions. What is found is led to,
because a target is only put on the stack behind a state that was found. What is
led to is found, because at every moment the open targets of the states found so
far are found themselves or wait on the stack. A seed that is no state is never dealt
with before the search comes to it, and then the search stops (`closure_eq_error`).

The length enters a closure through anchors at the end alone. If it is known and is
not the position, the closure is the one for an unknown length, with nothing left
undecided (`closure_some_of_ne`). If it is the position, the closure can only be
larger (`mem_closure_some_of_none`), and it is the same if nothing was undecided
(`closure_some_of_not_deferred`).
-/
import Motif.Automaton.Closure

set_option autoImplicit false

namespace Motif

variable {π : Type}

/-! ## One state at different lengths -/

namespace State

theorem admits_some_of_none {state : State π} {index length : Nat}
    (h : state.admits index none = true) : state.admits index (some length) = true := by
  rcases hanchor : state.anchor with _ | _ | _ <;> simp_all [admits]

/-- Away from the end it makes no difference whether the length is known. -/
theorem admits_some_of_ne {state : State π} {index length : Nat} (h : length ≠ index) :
    state.admits index (some length) = state.admits index none := by
  rcases hanchor : state.anchor with _ | _ | _ <;> simp [admits, hanchor, h]

theorem admits_some_of_not_awaitsLength {state : State π} {index length : Nat}
    (h : state.awaitsLength none = false) :
    state.admits index (some length) = state.admits index none := by
  rcases hanchor : state.anchor with _ | _ | _ <;>
    simp_all [admits, awaitsLength, Anchor.awaitsLength]

end State

namespace Automaton

/-! ## Silent ways -/

/-- The start is a state, and every edge leads to a state. -/
structure Linked (A : Automaton π) : Prop where
  start_lt : A.start < A.size
  silent_lt : ∀ q state, A.state? q = some state → ∀ t ∈ state.silent, t < A.size
  reading_lt : ∀ q state, A.state? q = some state → ∀ edge ∈ state.reading, edge.2 < A.size

/-- The state exists and may be entered at the position. -/
def Open (A : Automaton π) (index : Nat) (length : Option Nat) (q : Nat) : Prop :=
  ∃ state, A.state? q = some state ∧ state.admits index length = true

/-- Silent edges lead from the first state to the second, and all states on the way
are open, both ends included. -/
inductive Leads (A : Automaton π) (index : Nat) (length : Option Nat) : Nat → Nat → Prop where
  | here {q : Nat} (h : A.Open index length q) : Leads A index length q q
  | onward {q t r : Nat} {state : State π} (hq : A.state? q = some state)
    (hopen : state.admits index length = true) (ht : t ∈ state.silent)
    (h : Leads A index length t r) : Leads A index length q r

variable {A : Automaton π} {index : Nat} {length : Option Nat}

theorem Leads.open_first {q r : Nat} (h : A.Leads index length q r) : A.Open index length q := by
  cases h with
  | here h => exact h
  | onward hq hopen _ _ => exact ⟨_, hq, hopen⟩

theorem Leads.open_last {q r : Nat} (h : A.Leads index length q r) : A.Open index length r := by
  induction h with
  | here h => exact h
  | onward _ _ _ _ ih => exact ih

theorem Open.some_of_none {q l : Nat} (h : A.Open index none q) : A.Open index (some l) q := by
  obtain ⟨state, hq, hopen⟩ := h
  exact ⟨state, hq, State.admits_some_of_none hopen⟩

/-- Knowing the length shuts no way. -/
theorem Leads.some_of_none {q r l : Nat} (h : A.Leads index none q r) :
    A.Leads index (some l) q r := by
  induction h with
  | here h => exact .here h.some_of_none
  | onward hq hopen ht _ ih => exact .onward hq (State.admits_some_of_none hopen) ht ih

theorem exists_state_of_lt {q : Nat} (h : q < A.size) : ∃ state, A.state? q = some state := by
  cases hq : A.state? q with
  | none => exact absurd (state?_eq_none_iff.1 hq) (Nat.not_le.2 h)
  | some state => exact ⟨state, rfl⟩

/-! ## One visit of the search

The three equations for a state that was not dealt with before. -/

section Visit

variable {q : Nat} {stack : List Nat} {closed : StateSet} {sofar : Closure} {state : State π}

theorem explore_cons_open (hfound : ¬ q ∈ sofar.states) (hclosed : ¬ q ∈ closed)
    (hq : A.state? q = some state) (hopen : state.admits index length = true) :
    A.explore index length (q :: stack) closed sofar =
      A.explore index length (state.silent ++ stack) closed
        { sofar with states := sofar.states.insert q } := by
  rw [explore, dif_neg hfound, dif_neg hclosed]
  split
  · simp_all
  · rename_i state' hq'
    rw [hq] at hq'
    cases hq'
    rw [if_pos hopen]

theorem explore_cons_shut (hfound : ¬ q ∈ sofar.states) (hclosed : ¬ q ∈ closed)
    (hq : A.state? q = some state) (hshut : ¬ state.admits index length = true) :
    A.explore index length (q :: stack) closed sofar =
      A.explore index length stack (closed.insert q)
        { sofar with deferred := sofar.deferred || state.awaitsLength length } := by
  rw [explore, dif_neg hfound, dif_neg hclosed]
  split
  · simp_all
  · rename_i state' hq'
    rw [hq] at hq'
    cases hq'
    rw [if_neg hshut]

theorem explore_cons_missing (hfound : ¬ q ∈ sofar.states) (hclosed : ¬ q ∈ closed)
    (hq : A.state? q = none) :
    A.explore index length (q :: stack) closed sofar = .error (.noSuchState q) := by
  rw [explore, dif_neg hfound, dif_neg hclosed]
  split
  · rfl
  · simp_all

end Visit

/-! ## The search finds a closure -/

/-- Every silent edge leads to a state. -/
def SilentlyLinked (A : Automaton π) : Prop :=
  ∀ q state, A.state? q = some state → ∀ t ∈ state.silent, t < A.size

/-- If every number on the stack is a state, the search comes to no other number. -/
theorem exists_explore_eq_ok (hA : A.SilentlyLinked) {stack : List Nat} (closed : StateSet)
    (sofar : Closure) (hstack : ∀ q ∈ stack, q < A.size) :
    ∃ c, A.explore index length stack closed sofar = .ok c := by
  fun_induction A.explore index length stack closed sofar with
  | case1 closed sofar => exact ⟨sofar, rfl⟩
  | case2 closed sofar q stack _ ih => exact ih fun r hr => hstack r (List.mem_cons_of_mem q hr)
  | case3 closed sofar q stack _ _ ih => exact ih fun r hr => hstack r (List.mem_cons_of_mem q hr)
  | case4 closed sofar q stack _ _ hq =>
    exact absurd (state?_eq_none_iff.1 hq) (Nat.not_le.2 (hstack q List.mem_cons_self))
  | case5 closed sofar q stack _ _ state hq _ ih =>
    refine ih fun r hr => ?_
    rcases List.mem_append.1 hr with hr | hr
    · exact hA q state hq r hr
    · exact hstack r (List.mem_cons_of_mem q hr)
  | case6 closed sofar q stack _ _ state _ _ ih =>
    exact ih fun r hr => hstack r (List.mem_cons_of_mem q hr)

theorem exists_closure_eq_ok (hA : A.Linked) {seeds : List Nat} (hseeds : ∀ q ∈ seeds, q < A.size)
    (index : Nat) (length : Option Nat) : ∃ c, A.closure seeds index length = .ok c :=
  exists_explore_eq_ok hA.silent_lt ∅ {} hseeds

/-- The search stops at the first number on the stack that is no state. What is put on
the stack before that are states, and none of the numbers dealt with is the one. -/
theorem explore_eq_error (hA : A.SilentlyLinked) {stack : List Nat} {closed : StateSet}
    {sofar : Closure} {q : Nat} (hstack : stack.find? (A.size ≤ ·) = some q)
    (hfound : ∀ r ∈ sofar.states.toList, r < A.size) (hclosed : ∀ r ∈ closed.toList, r < A.size) :
    A.explore index length stack closed sofar = .error (.noSuchState q) := by
  -- Taking a state off the stack does not change which number is the first that is none.
  have hskip : ∀ {r : Nat} {stack : List Nat}, r < A.size →
      (r :: stack).find? (A.size ≤ ·) = some q → stack.find? (A.size ≤ ·) = some q := by
    intro r stack hr h
    rwa [List.find?_cons_of_neg (by simpa using hr)] at h
  fun_induction A.explore index length stack closed sofar with
  | case1 => cases hstack
  | case2 closed sofar r stack hr ih => exact ih (hskip (hfound r hr) hstack) hfound hclosed
  | case3 closed sofar r stack _ hr ih => exact ih (hskip (hclosed r hr) hstack) hfound hclosed
  | case4 closed sofar r stack _ _ hr =>
    rw [List.find?_cons_of_pos (by simpa using state?_eq_none_iff.1 hr)] at hstack
    cases hstack
    rfl
  | case5 closed sofar r stack _ _ state hr _ ih =>
    have hlt := lt_size_of_state? hr
    refine ih ?_ (fun t ht => ?_) hclosed
    · -- The targets are put in front, but they are states.
      have hsilent : state.silent.find? (A.size ≤ ·) = none :=
        List.find?_eq_none.2 fun t ht => by simpa using hA r state hr t ht
      rw [List.find?_append, hsilent, Option.none_or]
      exact hskip hlt hstack
    · rcases StateSet.mem_toList_insert.1 ht with ht | rfl
      · exact hfound t ht
      · exact hlt
  | case6 closed sofar r stack _ _ state hr _ ih =>
    have hlt := lt_size_of_state? hr
    refine ih (hskip hlt hstack) hfound fun t ht => ?_
    rcases StateSet.mem_toList_insert.1 ht with ht | rfl
    · exact hclosed t ht
    · exact hlt

/-- A closure of numbers that are not all states is a fault, and it names the first of
them that is none. -/
theorem closure_eq_error (hA : A.SilentlyLinked) {seeds : List Nat} {q : Nat}
    (hq : seeds.find? (A.size ≤ ·) = some q) (index : Nat) (length : Option Nat) :
    A.closure seeds index length = .error (.noSuchState q) :=
  explore_eq_error hA hq (by simp) (by simp)

/-- What was in the storage before makes no difference. -/
theorem closureInto_eq_closure (out : StateSet) (scratch : Scratch) (seeds : List Nat) :
    A.closureInto out scratch seeds index length = A.closure seeds index length := rfl

/-! ## What is found is led to -/

theorem leads_of_mem_explore {stack : List Nat} {closed : StateSet} {sofar c : Closure}
    (h : A.explore index length stack closed sofar = .ok c) {r : Nat}
    (hr : r ∈ c.states.toList) :
    r ∈ sofar.states.toList ∨ ∃ q ∈ stack, A.Leads index length q r := by
  fun_induction A.explore index length stack closed sofar with
  | case1 closed sofar =>
    cases h
    exact Or.inl hr
  | case2 closed sofar q stack _ ih =>
    rcases ih h with hr | ⟨q', hq', hleads⟩
    · exact Or.inl hr
    · exact Or.inr ⟨q', List.mem_cons_of_mem q hq', hleads⟩
  | case3 closed sofar q stack _ _ ih =>
    rcases ih h with hr | ⟨q', hq', hleads⟩
    · exact Or.inl hr
    · exact Or.inr ⟨q', List.mem_cons_of_mem q hq', hleads⟩
  | case4 => cases h
  | case5 closed sofar q stack _ _ state hq hopen ih =>
    rcases ih h with hr | ⟨q', hq', hleads⟩
    · rcases StateSet.mem_toList_insert.1 hr with hr | rfl
      · exact Or.inl hr
      · exact Or.inr ⟨r, List.mem_cons_self, .here ⟨state, hq, hopen⟩⟩
    · -- A target of `q` was reached through `q`; anything else was on the stack before.
      rcases List.mem_append.1 hq' with hq' | hq'
      · exact Or.inr ⟨q, List.mem_cons_self, .onward hq hopen hq' hleads⟩
      · exact Or.inr ⟨q', List.mem_cons_of_mem q hq', hleads⟩
  | case6 closed sofar q stack _ _ state _ _ ih =>
    rcases ih h with hr | ⟨q', hq', hleads⟩
    · exact Or.inl hr
    · exact Or.inr ⟨q', List.mem_cons_of_mem q hq', hleads⟩

/-! ## What is led to is found -/

/-- What was found before stays found. -/
theorem mem_explore_of_mem_sofar {stack : List Nat} {closed : StateSet} {sofar c : Closure}
    (h : A.explore index length stack closed sofar = .ok c) {r : Nat}
    (hr : r ∈ sofar.states.toList) : r ∈ c.states.toList := by
  fun_induction A.explore index length stack closed sofar with
  | case1 closed sofar =>
    cases h
    exact hr
  | case2 closed sofar q stack _ ih => exact ih h hr
  | case3 closed sofar q stack _ _ ih => exact ih h hr
  | case4 => cases h
  | case5 closed sofar q stack _ _ state _ _ ih =>
    exact ih h (StateSet.mem_toList_insert.2 (Or.inl hr))
  | case6 closed sofar q stack _ _ state _ _ ih => exact ih h hr

/-- No state that was set aside is open. -/
def Shut (A : Automaton π) (index : Nat) (length : Option Nat) (closed : StateSet) : Prop :=
  ∀ q ∈ closed.toList, ¬ A.Open index length q

theorem not_open_of_not_admits {q : Nat} {state : State π} (hq : A.state? q = some state)
    (h : ¬ state.admits index length = true) : ¬ A.Open index length q := by
  rintro ⟨state', hq', hopen⟩
  rw [hq] at hq'
  cases hq'
  exact h hopen

theorem Shut.insert {closed : StateSet} {q : Nat} (h : A.Shut index length closed)
    (hq : ¬ A.Open index length q) : A.Shut index length (closed.insert q) := by
  intro r hr
  rcases StateSet.mem_toList_insert.1 hr with hr | rfl
  · exact h r hr
  · exact hq

/-- Every open state on the stack is found. -/
theorem mem_explore_of_mem_stack {stack : List Nat} {closed : StateSet} {sofar c : Closure}
    (h : A.explore index length stack closed sofar = .ok c)
    (hshut : A.Shut index length closed) {r : Nat} (hr : r ∈ stack)
    (hopen : A.Open index length r) : r ∈ c.states.toList := by
  fun_induction A.explore index length stack closed sofar with
  | case1 => cases hr
  | case2 closed sofar q stack hq ih =>
    rcases List.mem_cons.1 hr with rfl | hr
    · exact mem_explore_of_mem_sofar h hq
    · exact ih h hshut hr
  | case3 closed sofar q stack _ hq ih =>
    rcases List.mem_cons.1 hr with rfl | hr
    · exact absurd hopen (hshut r hq)
    · exact ih h hshut hr
  | case4 => cases h
  | case5 closed sofar q stack _ _ state _ _ ih =>
    rcases List.mem_cons.1 hr with rfl | hr
    · exact mem_explore_of_mem_sofar h (StateSet.mem_toList_insert.2 (Or.inr rfl))
    · exact ih h hshut (List.mem_append_right _ hr)
  | case6 closed sofar q stack _ _ state hq hadmits ih =>
    have hclosed := not_open_of_not_admits hq hadmits
    rcases List.mem_cons.1 hr with rfl | hr
    · exact absurd hopen hclosed
    · exact ih h (hshut.insert hclosed) hr

/-- The invariant of the search: an open target of a state that was found is found
itself or waits on the stack. -/
def Pending (A : Automaton π) (index : Nat) (length : Option Nat) (stack : List Nat)
    (sofar : Closure) : Prop :=
  ∀ q ∈ sofar.states.toList, ∀ state, A.state? q = some state → ∀ t ∈ state.silent,
    A.Open index length t → t ∈ sofar.states.toList ∨ t ∈ stack

/-- At the end nothing waits, so the states found are closed under silent edges to
open states. -/
theorem mem_explore_of_silent {stack : List Nat} {closed : StateSet} {sofar c : Closure}
    (h : A.explore index length stack closed sofar = .ok c)
    (hshut : A.Shut index length closed) (hpending : A.Pending index length stack sofar) :
    A.Pending index length [] c := by
  fun_induction A.explore index length stack closed sofar with
  | case1 closed sofar =>
    cases h
    exact hpending
  | case2 closed sofar q stack hq ih =>
    refine ih h hshut fun r hr state hstate t ht hopen => ?_
    rcases hpending r hr state hstate t ht hopen with hmem | hmem
    · exact Or.inl hmem
    · rcases List.mem_cons.1 hmem with rfl | hmem
      · exact Or.inl hq
      · exact Or.inr hmem
  | case3 closed sofar q stack _ hq ih =>
    refine ih h hshut fun r hr state hstate t ht hopen => ?_
    rcases hpending r hr state hstate t ht hopen with hmem | hmem
    · exact Or.inl hmem
    · rcases List.mem_cons.1 hmem with rfl | hmem
      · exact absurd hopen (hshut t hq)
      · exact Or.inr hmem
  | case4 => cases h
  | case5 closed sofar q stack _ _ state hq _ ih =>
    refine ih h hshut fun r hr state' hstate t ht hopen => ?_
    rcases StateSet.mem_toList_insert.1 hr with hr | rfl
    · rcases hpending r hr state' hstate t ht hopen with hmem | hmem
      · exact Or.inl (StateSet.mem_toList_insert.2 (Or.inl hmem))
      · rcases List.mem_cons.1 hmem with rfl | hmem
        · exact Or.inl (StateSet.mem_toList_insert.2 (Or.inr rfl))
        · exact Or.inr (List.mem_append_right _ hmem)
    · -- The targets of the state found last are the ones that were put on the stack.
      rw [hq] at hstate
      cases hstate
      exact Or.inr (List.mem_append_left _ ht)
  | case6 closed sofar q stack _ _ state hq hadmits ih =>
    have hclosed := not_open_of_not_admits hq hadmits
    refine ih h (hshut.insert hclosed) fun r hr state' hstate t ht hopen => ?_
    rcases hpending r hr state' hstate t ht hopen with hmem | hmem
    · exact Or.inl hmem
    · rcases List.mem_cons.1 hmem with rfl | hmem
      · exact absurd hopen hclosed
      · exact Or.inr hmem

/-- **What a closure contains.** A state is in the closure of the seeds if and only
if an open silent way leads to it from a seed. -/
theorem mem_closure_iff {seeds : List Nat} {c : Closure}
    (h : A.closure seeds index length = .ok c) {r : Nat} :
    r ∈ c.states.toList ↔ ∃ q ∈ seeds, A.Leads index length q r := by
  constructor
  · intro hr
    rcases leads_of_mem_explore h hr with hr | hr
    · simp at hr
    · exact hr
  · rintro ⟨q, hq, hleads⟩
    have hshut : A.Shut index length ∅ := by intro r hr; simp at hr
    have hpending : A.Pending index length [] c :=
      mem_explore_of_silent h hshut (by intro q hq; simp at hq)
    have hfirst : q ∈ c.states.toList := mem_explore_of_mem_stack h hshut hq hleads.open_first
    clear hq
    induction hleads with
    | here _ => exact hfirst
    | onward hq _ ht hrest ih =>
      rcases hpending _ hfirst _ hq _ ht hrest.open_first with hmem | hmem
      · exact ih hmem
      · cases hmem

/-! ## Closures at different lengths -/

/-- Away from the end the search goes the same way whether the length is known or
not; only the mark of what is undecided differs. -/
theorem explore_some_of_ne {l : Nat} (hl : l ≠ index) (stack : List Nat) (closed : StateSet)
    (sofar : Closure) (mark : Bool) :
    A.explore index (some l) stack closed { sofar with deferred := mark } =
      (A.explore index none stack closed sofar).map ({ · with deferred := mark }) := by
  fun_induction A.explore index none stack closed sofar with
  | case1 closed sofar => rw [explore]; rfl
  | case2 closed sofar q stack hq ih => rw [explore, dif_pos hq, ih]
  | case3 closed sofar q stack hq hclosed ih => rw [explore, dif_neg hq, dif_pos hclosed, ih]
  | case4 closed sofar q stack hq hclosed hstate =>
    exact explore_cons_missing (by exact hq) hclosed hstate
  | case5 closed sofar q stack hq hclosed state hstate hopen ih =>
    rw [← State.admits_some_of_ne hl] at hopen
    refine (explore_cons_open ?_ hclosed hstate hopen).trans ih
    exact hq
  | case6 closed sofar q stack hq hclosed state hstate hshut ih =>
    rw [← State.admits_some_of_ne hl] at hshut
    refine (explore_cons_shut ?_ hclosed hstate hshut).trans ?_
    · exact hq
    · rw [State.awaitsLength_some, Bool.or_false]
      exact ih

/-- Away from the end a closure with a known length is the one with an unknown
length, and nothing in it is undecided. -/
theorem closure_some_of_ne {l : Nat} (hl : l ≠ index) (seeds : List Nat) :
    A.closure seeds index (some l) =
      (A.closure seeds index none).map ({ · with deferred := false }) :=
  explore_some_of_ne hl seeds ∅ {} false

/-- A mark that was set stays set. -/
theorem deferred_of_explore {stack : List Nat} {closed : StateSet} {sofar c : Closure}
    (h : A.explore index length stack closed sofar = .ok c) (hmark : sofar.deferred = true) :
    c.deferred = true := by
  fun_induction A.explore index length stack closed sofar with
  | case1 closed sofar =>
    cases h
    exact hmark
  | case2 closed sofar q stack _ ih => exact ih h hmark
  | case3 closed sofar q stack _ _ ih => exact ih h hmark
  | case4 => cases h
  | case5 closed sofar q stack _ _ state _ _ ih => exact ih h hmark
  | case6 closed sofar q stack _ _ state _ _ ih =>
    refine ih h ?_
    rw [hmark, Bool.true_or]

/-- With a known length nothing is left undecided. -/
theorem explore_some_deferred {l : Nat} {stack : List Nat} {closed : StateSet} {sofar c : Closure}
    (h : A.explore index (some l) stack closed sofar = .ok c) : c.deferred = sofar.deferred := by
  fun_induction A.explore index (some l) stack closed sofar with
  | case1 closed sofar =>
    cases h
    rfl
  | case2 closed sofar q stack _ ih => exact ih h
  | case3 closed sofar q stack _ _ ih => exact ih h
  | case4 => cases h
  | case5 closed sofar q stack _ _ state _ _ ih => exact ih h
  | case6 closed sofar q stack _ _ state _ _ ih =>
    refine (ih h).trans ?_
    rw [State.awaitsLength_some, Bool.or_false]

theorem closure_some_deferred {l : Nat} {seeds : List Nat} {c : Closure}
    (h : A.closure seeds index (some l) = .ok c) : c.deferred = false := explore_some_deferred h

/-- If nothing was undecided, no state on the way was waiting for the length, and the
search goes the same way with any length. -/
theorem explore_some_of_not_deferred {stack : List Nat} {closed : StateSet} {sofar c : Closure}
    (h : A.explore index none stack closed sofar = .ok c) (hmark : c.deferred = false) (l : Nat) :
    A.explore index (some l) stack closed sofar = .ok c := by
  fun_induction A.explore index none stack closed sofar with
  | case1 closed sofar => rw [explore]; exact h
  | case2 closed sofar q stack hq ih => rw [explore, dif_pos hq, ih h]
  | case3 closed sofar q stack hq hclosed ih =>
    rw [explore, dif_neg hq, dif_pos hclosed, ih h]
  | case4 => cases h
  | case5 closed sofar q stack hq hclosed state hstate hopen ih =>
    rw [explore_cons_open hq hclosed hstate (State.admits_some_of_none hopen), ih h]
  | case6 closed sofar q stack hq hclosed state hstate hshut ih =>
    cases hawaits : state.awaitsLength none with
    | true =>
      have hset := deferred_of_explore h (by rw [hawaits, Bool.or_true])
      rw [hmark] at hset
      cases hset
    | false =>
      rw [← State.admits_some_of_not_awaitsLength hawaits] at hshut
      rw [explore_cons_shut hq hclosed hstate hshut, State.awaitsLength_some, ← hawaits, ih h]

theorem closure_some_of_not_deferred {seeds : List Nat} {c : Closure}
    (h : A.closure seeds index none = .ok c) (hmark : c.deferred = false) (l : Nat) :
    A.closure seeds index (some l) = .ok c := explore_some_of_not_deferred h hmark l

/-- Knowing the length takes no state out of a closure. -/
theorem mem_closure_some_of_none {seeds : List Nat} {c c' : Closure} {l : Nat}
    (h : A.closure seeds index none = .ok c) (h' : A.closure seeds index (some l) = .ok c')
    {r : Nat} (hr : r ∈ c.states.toList) : r ∈ c'.states.toList := by
  obtain ⟨q, hq, hleads⟩ := (mem_closure_iff h).1 hr
  exact (mem_closure_iff h').2 ⟨q, hq, hleads.some_of_none⟩

/-- Nothing is reached from nowhere. -/
theorem closure_nil (index : Nat) (length : Option Nat) :
    A.closure [] index length = .ok {} := by
  rw [closure, explore]

end Automaton

end Motif
