/-
Where positions are looked at.

A position in the input is looked at by anchors and by nothing else. A search for a closure
goes the same way at two positions if no anchor of the automaton tells them apart
(`closure_congr`), and an automaton has no anchors but those that occur in its pattern
(`Anchored.mem_subpatterns`).

That leaves two questions to the anchors themselves. Without an anchor at the end nobody
asks how long the input is (`closure_eq_closure_none`). And an anchor at the end asks only
how far it is to the end, so a closure stays the same if position and length are moved
together. The one position that is unlike all others is the first one, and only an anchor at
the start tells it from them (`closure_add`).
-/
import Motif.Proofs.Budget
import Motif.Proofs.Deferral

set_option autoImplicit false

namespace Motif

variable {π : Type}

/-! ## Anchors that occur in a pattern -/

namespace Pattern

mutual
/-- A state has no anchor but one that occurs in the pattern. -/
theorem anchor_mem_subpatterns {condition : Anchor} {state : State π}
    (hanchor : state.anchor = some condition) : (p : Pattern π) → (base : Nat) →
    (onward : List Nat) → state ∈ layout p base onward → anchor condition ∈ p.subpatterns
  | predicate _, _, _, hstate => by
    simp only [layout, List.mem_cons, List.not_mem_nil, or_false] at hstate
    rcases hstate with rfl | rfl <;> cases hanchor
  | any, _, _, hstate => by
    simp only [layout, List.mem_cons, List.not_mem_nil, or_false] at hstate
    rcases hstate with rfl | rfl <;> cases hanchor
  | anchor _, _, _, hstate => by
    simp only [layout, List.mem_cons, List.not_mem_nil, or_false] at hstate
    rcases hstate with rfl | rfl
    · cases hanchor
      exact List.mem_singleton_self _
    · cases hanchor
  | sequence children, base, onward, hstate => by
    simp only [layout] at hstate
    exact List.mem_cons_of_mem _
      (anchor_mem_subpatternsOfAll hanchor children base onward hstate)
  | alternation left right, base, onward, hstate => by
    simp only [layout, List.mem_append, List.mem_cons, List.not_mem_nil, or_false] at hstate
    simp only [subpatterns, List.mem_cons, List.mem_append]
    rcases hstate with ((rfl | hstate) | hstate) | rfl
    -- The entry, the two sides and the exit.
    · cases hanchor
    · exact Or.inr (Or.inl (anchor_mem_subpatterns hanchor left _ _ hstate))
    · exact Or.inr (Or.inr (anchor_mem_subpatterns hanchor right _ _ hstate))
    · cases hanchor
  | repetition child min max greedy, base, onward, hstate => by
    rcases mem_layout_repetition hstate with rfl | rfl | ⟨k, -, hstate⟩
    · cases hanchor
    · cases hanchor
    · exact List.mem_cons_of_mem _ (anchor_mem_subpatterns hanchor child _ _ hstate)

theorem anchor_mem_subpatternsOfAll {condition : Anchor} {state : State π}
    (hanchor : state.anchor = some condition) : (ps : List (Pattern π)) → (base : Nat) →
    (onward : List Nat) → state ∈ layoutSequence ps base onward →
    anchor condition ∈ subpatternsOfAll ps
  | [], _, _, hstate => by
    simp only [layoutSequence, List.mem_cons, List.not_mem_nil, or_false] at hstate
    rcases hstate with rfl | rfl <;> cases hanchor
  | [child], base, onward, hstate => by
    simp only [layoutSequence] at hstate
    exact List.mem_append_left _ (anchor_mem_subpatterns hanchor child base onward hstate)
  | child :: next :: rest, base, onward, hstate => by
    simp only [layoutSequence, List.mem_append] at hstate
    rcases hstate with hstate | hstate
    · exact List.mem_append_left _ (anchor_mem_subpatterns hanchor child _ _ hstate)
    · exact List.mem_append_right _
        (anchor_mem_subpatternsOfAll hanchor (next :: rest) _ _ hstate)
end

end Pattern

namespace Automaton

/-- The automaton of a pattern has no anchors but those that occur in the pattern. -/
theorem Anchored.mem_subpatterns {p : Pattern π} {condition : Anchor} {q : Nat}
    (h : (ofPattern p).Anchored condition q) : .anchor condition ∈ p.subpatterns := by
  obtain ⟨state, hstate, hanchor⟩ := h
  rw [state?, ofPattern, List.getElem?_toArray] at hstate
  exact Pattern.anchor_mem_subpatterns hanchor p 0 [] (List.mem_of_getElem? hstate)

/-! ## Closures at different positions -/

variable {A : Automaton π} {index index' : Nat} {length length' : Option Nat}

/-- No anchor of the automaton tells the two positions apart. -/
def SamePlace (A : Automaton π) (index : Nat) (length : Option Nat) (index' : Nat)
    (length' : Option Nat) : Prop :=
  ∀ condition q, A.Anchored condition q →
    condition.holds index length = condition.holds index' length' ∧
      condition.awaitsLength length = condition.awaitsLength length'

theorem SamePlace.admits_eq (h : A.SamePlace index length index' length') {q : Nat} {state : State π}
    (hstate : A.state? q = some state) :
    state.admits index length = state.admits index' length' := by
  cases hanchor : state.anchor with
  | none => simp [State.admits, hanchor]
  | some condition =>
    simpa [State.admits, hanchor] using (h condition q ⟨state, hstate, hanchor⟩).1

theorem SamePlace.awaitsLength_eq (h : A.SamePlace index length index' length') {q : Nat}
    {state : State π} (hstate : A.state? q = some state) :
    state.awaitsLength length = state.awaitsLength length' := by
  cases hanchor : state.anchor with
  | none => simp [State.awaitsLength, hanchor]
  | some condition =>
    simpa [State.awaitsLength, hanchor] using (h condition q ⟨state, hstate, hanchor⟩).2

/-- The search opens and sets aside the same states. -/
theorem explore_congr (h : A.SamePlace index length index' length') (stack : List Nat)
    (closed : StateSet) (sofar : Closure) :
    A.explore index length stack closed sofar = A.explore index' length' stack closed sofar := by
  fun_induction A.explore index' length' stack closed sofar with
  | case1 closed sofar => rw [explore]
  | case2 closed sofar q stack hq ih => rw [explore, dif_pos hq, ih]
  | case3 closed sofar q stack hq hclosed ih => rw [explore, dif_neg hq, dif_pos hclosed, ih]
  | case4 closed sofar q stack hq hclosed hstate =>
    exact explore_cons_missing hq hclosed hstate
  | case5 closed sofar q stack hq hclosed state hstate hopen ih =>
    rw [← h.admits_eq hstate] at hopen
    rw [explore_cons_open hq hclosed hstate hopen, ih]
  | case6 closed sofar q stack hq hclosed state hstate hshut ih =>
    rw [← h.admits_eq hstate] at hshut
    rw [explore_cons_shut hq hclosed hstate hshut, h.awaitsLength_eq hstate, ih]

/-- **Closures at positions that no anchor tells apart** are the same. -/
theorem closure_congr (h : A.SamePlace index length index' length') (seeds : List Nat) :
    A.closure seeds index length = A.closure seeds index' length' :=
  explore_congr h seeds ∅ {}

/-- Without an anchor at the end the length makes no difference. -/
theorem closure_eq_closure_none (h : ∀ q, ¬ A.Anchored .atEnd q) (seeds : List Nat) (index : Nat)
    (length : Option Nat) : A.closure seeds index length = A.closure seeds index none := by
  refine closure_congr (fun condition q hq => ?_) seeds
  cases condition with
  | atStart => exact ⟨rfl, rfl⟩
  | atEnd => exact absurd hq (h q)

/-- Where moving on cannot be noticed: behind the first position, and everywhere if there
is no anchor at the start. -/
def Movable (A : Automaton π) (index : Nat) : Prop := 0 < index ∨ ∀ q, ¬ A.Anchored .atStart q

theorem Movable.succ (h : A.Movable index) : A.Movable (index + 1) :=
  h.imp_left fun hindex => Nat.lt_succ_of_lt hindex

/-- Position and length may be moved together. -/
theorem closure_add (h : A.Movable index) (seeds : List Nat) (length distance : Nat) :
    A.closure seeds (index + distance) (some (length + distance)) =
      A.closure seeds index (some length) := by
  refine closure_congr (fun condition q hq => ?_) seeds
  cases condition with
  | atStart =>
    refine ⟨?_, rfl⟩
    rcases h with hindex | hnone
    · -- Neither position is the first one.
      rw [Anchor.holds_atStart, Anchor.holds_atStart, beq_eq_false_iff_ne.2 (by omega),
        beq_eq_false_iff_ne.2 (by omega)]
    · exact absurd hq (hnone q)
  | atEnd => simp

end Automaton

end Motif
