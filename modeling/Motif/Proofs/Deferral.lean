/-
What a closure leaves undecided.

While the length of the input is unknown, an anchor at the end keeps a state closed that
may turn out to be open. A closure is marked as deferred if the search has come across
such a state, and that can be told from the closure itself: the state is a seed, or a
silent edge leads to it from a state of the closure (`deferred_closure_iff`).

The search sees every such state, because it is put on the stack together with the other
targets. It is then either set aside, which sets the mark, or it was set aside before.

A mark that is not set is a promise that the closure is final, and one that is set is a
promise that the end of the input would enlarge it (`exists_closure_deferred`). At the end
of the input the anchor that was waited for holds, so the state that set the mark is found.
-/
import Motif.Proofs.Blocks
import Motif.Proofs.Closure

set_option autoImplicit false

namespace Motif

variable {π : Type}

namespace State

/-- A state that waits for the length may not be entered. -/
theorem not_admits_of_awaitsLength {state : State π} {index : Nat} {length : Option Nat}
    (h : state.awaitsLength length = true) : ¬ state.admits index length = true := by
  rcases hanchor : state.anchor with _ | _ | _ <;> cases length <;>
    simp_all [admits, awaitsLength, Anchor.awaitsLength]

end State

namespace Automaton

/-- The state is there, and it is closed only because the length is not known. -/
def Awaits (A : Automaton π) (length : Option Nat) (q : Nat) : Prop :=
  ∃ state, A.state? q = some state ∧ state.awaitsLength length = true

/-- A silent edge leads from the first state to the second. -/
def Edge (A : Automaton π) (q t : Nat) : Prop := ∃ state, A.state? q = some state ∧ t ∈ state.silent

variable {A : Automaton π} {index : Nat} {length : Option Nat}

theorem Awaits.not_open {q : Nat} (h : A.Awaits length q) : ¬ A.Open index length q := by
  obtain ⟨state, hstate, hawaits⟩ := h
  exact not_open_of_not_admits hstate (State.not_admits_of_awaitsLength hawaits)

/-- The mark is set for no other reason. -/
theorem awaits_of_explore {stack : List Nat} {closed : StateSet} {sofar c : Closure}
    (h : A.explore index length stack closed sofar = .ok c) (hmark : c.deferred = true) :
    sofar.deferred = true ∨
      ∃ t, A.Awaits length t ∧ (t ∈ stack ∨ ∃ q ∈ c.states.toList, A.Edge q t) := by
  fun_induction A.explore index length stack closed sofar with
  | case1 closed sofar =>
    cases h
    exact Or.inl hmark
  | case2 closed sofar q stack _ ih =>
    rcases ih h with hbefore | ⟨t, hawaits, ht | hedge⟩
    · exact Or.inl hbefore
    · exact Or.inr ⟨t, hawaits, Or.inl (List.mem_cons_of_mem q ht)⟩
    · exact Or.inr ⟨t, hawaits, Or.inr hedge⟩
  | case3 closed sofar q stack _ _ ih =>
    rcases ih h with hbefore | ⟨t, hawaits, ht | hedge⟩
    · exact Or.inl hbefore
    · exact Or.inr ⟨t, hawaits, Or.inl (List.mem_cons_of_mem q ht)⟩
    · exact Or.inr ⟨t, hawaits, Or.inr hedge⟩
  | case4 => cases h
  | case5 closed sofar q stack _ _ state hstate _ ih =>
    rcases ih h with hbefore | ⟨t, hawaits, ht | hedge⟩
    · exact Or.inl hbefore
    · rcases List.mem_append.1 ht with ht | ht
      · -- It is a target of a state that was found.
        have hq : q ∈ c.states.toList :=
          mem_explore_of_mem_sofar h (StateSet.mem_toList_insert.2 (Or.inr rfl))
        exact Or.inr ⟨t, hawaits, Or.inr ⟨q, hq, state, hstate, ht⟩⟩
      · exact Or.inr ⟨t, hawaits, Or.inl (List.mem_cons_of_mem q ht)⟩
    · exact Or.inr ⟨t, hawaits, Or.inr hedge⟩
  | case6 closed sofar q stack _ _ state hstate _ ih =>
    -- This is the only visit that sets the mark.
    rcases ih h with hbefore | ⟨t, hawaits, ht | hedge⟩
    · rcases Bool.or_eq_true_iff.1 hbefore with hbefore | hawaits
      · exact Or.inl hbefore
      · exact Or.inr ⟨q, ⟨state, hstate, hawaits⟩, Or.inl List.mem_cons_self⟩
    · exact Or.inr ⟨t, hawaits, Or.inl (List.mem_cons_of_mem q ht)⟩
    · exact Or.inr ⟨t, hawaits, Or.inr hedge⟩

/-- What is true while the search goes on: nothing that waits for the length was found, and
what waits and was seen has set the mark, unless it is still on the stack. -/
structure Noted (A : Automaton π) (index : Nat) (length : Option Nat) (seeds stack : List Nat)
    (closed : StateSet) (sofar : Closure) : Prop where
  isOpen : ∀ q ∈ sofar.states.toList, A.Open index length q
  closed : ∀ q ∈ closed.toList, A.Awaits length q → sofar.deferred = true
  seen : ∀ t, A.Awaits length t → (t ∈ seeds ∨ ∃ q ∈ sofar.states.toList, A.Edge q t) →
    sofar.deferred = true ∨ t ∈ stack

/-- **The mark is set for every state that waits.** -/
theorem deferred_of_awaits {seeds stack : List Nat} {closed : StateSet} {sofar c : Closure}
    (h : A.explore index length stack closed sofar = .ok c)
    (hnoted : A.Noted index length seeds stack closed sofar) {t : Nat}
    (hawaits : A.Awaits length t) (ht : t ∈ seeds ∨ ∃ q ∈ c.states.toList, A.Edge q t) :
    c.deferred = true := by
  fun_induction A.explore index length stack closed sofar with
  | case1 closed sofar =>
    cases h
    exact (hnoted.seen t hawaits ht).resolve_right List.not_mem_nil
  | case2 closed sofar q stack hq ih =>
    refine ih h ⟨hnoted.isOpen, hnoted.closed, fun t hawaits ht => ?_⟩
    -- A state that was found does not wait.
    refine (hnoted.seen t hawaits ht).imp_right fun hmem => ?_
    rcases List.mem_cons.1 hmem with rfl | hmem
    · exact absurd (hnoted.isOpen t hq) hawaits.not_open
    · exact hmem
  | case3 closed sofar q stack _ hq ih =>
    refine ih h ⟨hnoted.isOpen, hnoted.closed, fun t hawaits ht => ?_⟩
    rcases hnoted.seen t hawaits ht with hmark | hmem
    · exact Or.inl hmark
    · rcases List.mem_cons.1 hmem with rfl | hmem
      · exact Or.inl (hnoted.closed t hq hawaits)
      · exact Or.inr hmem
  | case4 => cases h
  | case5 closed sofar q stack _ _ state hstate hopen ih =>
    refine ih h ⟨?_, hnoted.closed, fun t hawaits ht => ?_⟩
    · intro r hr
      rcases StateSet.mem_toList_insert.1 hr with hr | rfl
      · exact hnoted.isOpen r hr
      · exact ⟨state, hstate, hopen⟩
    · have hbefore : t ∈ state.silent ∨ t ∈ seeds ∨ ∃ r ∈ sofar.states.toList, A.Edge r t := by
        rcases ht with ht | ⟨r, hr, hedge⟩
        · exact Or.inr (Or.inl ht)
        · rcases StateSet.mem_toList_insert.1 hr with hr | rfl
          · exact Or.inr (Or.inr ⟨r, hr, hedge⟩)
          · obtain ⟨state', hstate', ht⟩ := hedge
            rw [hstate] at hstate'
            cases hstate'
            exact Or.inl ht
      rcases hbefore with ht | ht
      · exact Or.inr (List.mem_append_left _ ht)
      · refine (hnoted.seen t hawaits ht).imp_right fun hmem => ?_
        rcases List.mem_cons.1 hmem with rfl | hmem
        · exact absurd ⟨state, hstate, hopen⟩ hawaits.not_open
        · exact List.mem_append_right _ hmem
  | case6 closed sofar q stack _ _ state hstate _ ih =>
    have hmark : A.Awaits length q → (sofar.deferred || state.awaitsLength length) = true := by
      rintro ⟨state', hstate', hawaits⟩
      rw [hstate] at hstate'
      cases hstate'
      rw [hawaits, Bool.or_true]
    refine ih h ⟨hnoted.isOpen, ?_, fun t hawaits ht => ?_⟩
    · intro r hr hawaits
      rcases StateSet.mem_toList_insert.1 hr with hr | rfl
      · exact Bool.or_eq_true_iff.2 (Or.inl (hnoted.closed r hr hawaits))
      · exact hmark hawaits
    · rcases hnoted.seen t hawaits ht with hbefore | hmem
      · exact Or.inl (Bool.or_eq_true_iff.2 (Or.inl hbefore))
      · rcases List.mem_cons.1 hmem with rfl | hmem
        · exact Or.inl (hmark hawaits)
        · exact Or.inr hmem

/-- **When a closure is deferred.** A state that waits for the length is a seed, or a silent
edge leads to it from a state of the closure. -/
theorem deferred_closure_iff {seeds : List Nat} {c : Closure}
    (h : A.closure seeds index length = .ok c) :
    c.deferred = true ↔
      ∃ t, A.Awaits length t ∧ (t ∈ seeds ∨ ∃ q ∈ c.states.toList, A.Edge q t) := by
  constructor
  · intro hmark
    exact (awaits_of_explore h hmark).resolve_left Bool.false_ne_true
  · rintro ⟨t, hawaits, ht⟩
    have hnoted : A.Noted index length seeds seeds ∅ {} := by
      refine ⟨by simp, by simp, ?_⟩
      rintro t - (ht | ⟨q, hq, -⟩)
      · exact Or.inr ht
      · simp at hq
    exact deferred_of_awaits h hnoted hawaits ht

/-! ## What the end of the input adds -/

/-- The state is there, and it has the anchor. -/
def Anchored (A : Automaton π) (condition : Anchor) (q : Nat) : Prop :=
  ∃ state, A.state? q = some state ∧ state.anchor = some condition

/-- While the length is not known, the states that wait for it are those with an anchor at
the end. -/
theorem awaits_none_iff {t : Nat} : A.Awaits none t ↔ A.Anchored .atEnd t := by
  refine exists_congr fun state => and_congr_right fun _ => ?_
  rcases hanchor : state.anchor with _ | _ | _ <;>
    simp [State.awaitsLength, Anchor.awaitsLength, hanchor]

/-- At the end of the input an anchor at the end holds. -/
theorem Anchored.open_of_atEnd {t : Nat} (h : A.Anchored .atEnd t) :
    A.Open index (some index) t := by
  obtain ⟨state, hstate, hanchor⟩ := h
  exact ⟨state, hstate, by simp [State.admits, hanchor]⟩

/-- A silent way goes on along a silent edge to an open state. -/
theorem Leads.onward_last {q r t : Nat} (h : A.Leads index length q r) (hedge : A.Edge r t)
    (ht : A.Open index length t) : A.Leads index length q t := by
  induction h with
  | here hopen =>
    obtain ⟨state, hstate, hadmits⟩ := hopen
    obtain ⟨state', hstate', hmem⟩ := hedge
    rw [hstate] at hstate'
    cases hstate'
    exact .onward hstate hadmits hmem (.here ht)
  | onward hq hopen hmem _ ih => exact .onward hq hopen hmem (ih hedge)

/-- An open state is in the closure if it is a seed, or if a silent edge leads to it from a
state of the closure. -/
theorem mem_closure_of_open {seeds : List Nat} {c : Closure}
    (h : A.closure seeds index length = .ok c) {t : Nat} (ht : A.Open index length t)
    (hmem : t ∈ seeds ∨ ∃ q ∈ c.states.toList, A.Edge q t) : t ∈ c.states.toList := by
  rw [mem_closure_iff h]
  rcases hmem with hseed | ⟨q, hq, hedge⟩
  · exact ⟨t, hseed, .here ht⟩
  · obtain ⟨s, hs, hleads⟩ := (mem_closure_iff h).1 hq
    exact ⟨s, hs, hleads.onward_last hedge ht⟩

/-- If something was undecided, the end of the input opens a state that was closed. -/
theorem exists_mem_closure_some_of_deferred {seeds : List Nat} {c c' : Closure}
    (h : A.closure seeds index none = .ok c) (h' : A.closure seeds index (some index) = .ok c')
    (hmark : c.deferred = true) :
    ∃ t ∈ c'.states.toList, t ∉ c.states.toList ∧ A.Anchored .atEnd t := by
  obtain ⟨t, hawaits, ht⟩ := (deferred_closure_iff h).1 hmark
  have hanchored : A.Anchored .atEnd t := awaits_none_iff.1 hawaits
  have hmem : t ∈ c'.states.toList := by
    refine mem_closure_of_open h' hanchored.open_of_atEnd ?_
    refine ht.imp_right ?_
    rintro ⟨q, hq, hedge⟩
    exact ⟨q, mem_closure_some_of_none h h' hq, hedge⟩
  refine ⟨t, hmem, ?_, hanchored⟩
  -- A closure holds open states only.
  intro hbefore
  obtain ⟨q, -, hleads⟩ := (mem_closure_iff h).1 hbefore
  exact hawaits.not_open hleads.open_last

/-- **What the mark of a closure says.** Let the closure of some states be searched at a
position while the length of the input is not known. With any other length than the position
it is the same closure, in the same order. With the position as the length it is the same
closure if it was not deferred; if it was, it has all of these states and another one, which
has an anchor at the end. It was deferred if and only if a state with such an anchor is a
seed, or a silent edge leads to one from a state of the closure. With a known length no
closure is deferred. -/
theorem exists_closure_deferred (hA : A.SilentlyLinked) {seeds : List Nat}
    (hseeds : ∀ q ∈ seeds, q < A.size) (index : Nat) :
    ∃ c, A.closure seeds index none = .ok c ∧
      (∀ l, l ≠ index → A.closure seeds index (some l) = .ok ⟨c.states, false⟩) ∧
      (c.deferred = false → A.closure seeds index (some index) = .ok ⟨c.states, false⟩) ∧
      (c.deferred = true → ∃ c', A.closure seeds index (some index) = .ok c' ∧
        (∀ q ∈ c.states.toList, q ∈ c'.states.toList) ∧
        ∃ t ∈ c'.states.toList, t ∉ c.states.toList ∧ A.Anchored .atEnd t) ∧
      (c.deferred = true ↔
        ∃ t, A.Anchored .atEnd t ∧ (t ∈ seeds ∨ ∃ q ∈ c.states.toList, A.Edge q t)) ∧
      ∀ l, ∃ c', A.closure seeds index (some l) = .ok c' ∧ c'.deferred = false := by
  obtain ⟨c, hc⟩ : ∃ c, A.closure seeds index none = .ok c :=
    exists_explore_eq_ok hA ∅ {} hseeds
  have hknown : ∀ l, ∃ c', A.closure seeds index (some l) = .ok c' := fun l =>
    exists_explore_eq_ok hA ∅ {} hseeds
  refine ⟨c, hc, ?_, ?_, ?_, ?_, ?_⟩
  · intro l hl
    rw [closure_some_of_ne hl, hc]
    rfl
  · intro hmark
    rw [closure_some_of_not_deferred hc hmark, ← hmark]
  · intro hmark
    obtain ⟨c', hc'⟩ := hknown index
    exact ⟨c', hc', fun q hq => mem_closure_some_of_none hc hc' hq,
      exists_mem_closure_some_of_deferred hc hc' hmark⟩
  · rw [deferred_closure_iff hc]
    simp only [awaits_none_iff]
  · intro l
    obtain ⟨c', hc'⟩ := hknown l
    exact ⟨c', hc', closure_some_deferred hc'⟩

/-- A loop around two gates, of which one opens at the start of the input and the other one
at its end. Between the two, the closure of its entry is deferred, and the gate at the end is
what the closure lacks. -/
theorem exists_closure_deferred_gates :
    let A := ofPattern (π := Unit) (Pattern.alternation (.anchor .atStart) (.anchor .atEnd)).star
    A.SilentlyLinked ∧ (∀ q ∈ [0], q < A.size) ∧
      ∃ c c', A.closure [0] 1 none = .ok c ∧ c.deferred = true ∧
        A.closure [0] 1 (some 2) = .ok ⟨c.states, false⟩ ∧
        A.closure [0] 1 (some 1) = .ok c' ∧
        ∃ t ∈ c'.states.toList, t ∉ c.states.toList ∧ A.Anchored .atEnd t := by
  intro A
  have hlinked : A.SilentlyLinked := (linked_ofPattern _).silent_lt
  have hseeds : ∀ q ∈ [0], q < A.size := by decide
  refine ⟨hlinked, hseeds, ?_⟩
  obtain ⟨c, hc, hother, -, hend, hmark, -⟩ := exists_closure_deferred hlinked hseeds 1
  have hfound : (A.closure [0] 1 none).toOption = some ⟨.ofList [0, 2, 1], true⟩ := by
    decide +kernel
  rw [hc] at hfound
  obtain rfl := Option.some.inj hfound
  obtain ⟨c', hc', -, hlacking⟩ := hend rfl
  exact ⟨_, c', hc, rfl, hother 2 (by decide), hc', hlacking⟩

end Automaton

end Motif
