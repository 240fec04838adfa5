/-
What an automaton makes of one element.

Two things are said of a step, and both of them edge by edge and state by state, in
the order in which the step tries them. It runs alike in surroundings that
evaluations cannot tell apart (`alike_step`). And it comes to the targets of reading
edges of the active states (`ensures_step`): to no others, and to all of those whose
label the element is known to meet.
-/
import Motif.Automaton.Step
import Motif.Proofs.Outcome
import Motif.Proofs.Closure

set_option autoImplicit false

namespace Motif

variable {π α μ ε : Type}

/-! ## Runs in related surroundings -/

section Alike

open Run

variable {R : Env π α μ → Env π α μ → Prop} {P : Predicates π α μ ε}

/-- Evaluations cannot tell the related surroundings apart. -/
def Predicates.Respects (P : Predicates π α μ ε) (R : Env π α μ → Env π α μ → Prop) : Prop :=
  ∀ handle x, (evaluate P handle x).Alike R (evaluate P handle x)

theorem Predicates.respects_sameButLog (P : Predicates π α μ ε) : P.Respects Env.SameButLog :=
  alike_evaluate_sameButLog P

theorem Predicates.Steady.respects (h : P.Steady) : P.Respects fun _ _ => True :=
  steady_evaluate h

theorem Predicates.Answers.respects {holds : π → α → Bool} (h : P.Answers holds) :
    P.Respects fun _ _ => True := h.steady.respects

theorem Label.alike_accepts (hP : P.Respects R) (x : α) (label : Label π) :
    (label.accepts P x).Alike R (label.accepts P x) := by
  cases label with
  | any => exact alike_pure true
  | predicate handle => exact hP handle x

namespace Automaton

theorem alike_follow (hP : P.Respects R) (x : α) (edges : List (Label π × Nat))
    (reached : StateSet) : (follow P x edges reached).Alike R (follow P x edges reached) := by
  induction edges generalizing reached with
  | nil => exact alike_pure reached
  | cons edge edges ih =>
    obtain ⟨label, target⟩ := edge
    exact (label.alike_accepts hP x).bind fun passes => ih _

theorem alike_followAll (A : Automaton π) (hP : P.Respects R) (x : α) (active : List Nat)
    (reached : StateSet) :
    (A.followAll P x active reached).Alike R (A.followAll P x active reached) := by
  induction active generalizing reached with
  | nil => exact alike_pure reached
  | cons q active ih =>
    unfold followAll
    split
    · exact alike_fail _
    · exact (alike_follow hP x _ reached).bind fun reached => ih reached

theorem alike_step (A : Automaton π) (hP : P.Respects R) (active : StateSet) (x : α) :
    (A.step P active x).Alike R (A.step P active x) := A.alike_followAll hP x active.toList ∅

end Automaton

end Alike

/-! ## One element -/

section Step

open Run

variable {may : ε → Prop} {P : Predicates π α μ ε} {x : α} {S C : Label π → Prop}

/-- What is known of the labels that an element meets: only labels of `S` are met,
and all labels of `C` are. For predicates of which nothing is known these are all
labels and none; for predicates that answer they are the same labels. -/
def Label.MetWithin (P : Predicates π α μ ε) (x : α) (may : ε → Prop) (S C : Label π → Prop) :
    Prop :=
  ∀ label : Label π,
    (label.accepts P x).Ensures may fun b => (b = true → S label) ∧ (C label → b = true)

theorem Label.metWithin_all (hP : P.PanicsOnly may) :
    Label.MetWithin P x may (fun _ => True) (fun _ => False) := by
  intro label
  cases label with
  | any => exact ensures_pure ⟨fun _ => trivial, fun _ => rfl⟩
  | predicate handle => exact ensures_evaluate hP fun _ _ _ => ⟨fun _ => trivial, False.elim⟩

/-- Does the element meet the label, if predicates answer as `holds` says? -/
def Label.Meets (holds : π → α → Bool) (x : α) : Label π → Prop
  | .any => True
  | .predicate handle => holds handle x = true

theorem Label.metWithin_of_answers {holds : π → α → Bool} (hP : P.Answers holds) :
    Label.MetWithin P x (fun _ => False) (Label.Meets holds x) (Label.Meets holds x) := by
  intro label
  cases label with
  | any => exact ensures_pure ⟨fun _ => trivial, fun _ => rfl⟩
  | predicate handle =>
    refine ensures_evaluate hP.neverPanics fun memory b hb => ?_
    rw [hP handle x memory] at hb
    cases hb
    exact ⟨id, id⟩

namespace Automaton

/-- The targets of some edges whose labels are in `T`. -/
def Targets (edges : List (Label π × Nat)) (T : Label π → Prop) (t : Nat) : Prop :=
  ∃ edge ∈ edges, edge.2 = t ∧ T edge.1

/-- The set lies between what it was and the targets of edges with certain labels. -/
def Between (reached : StateSet) (edges : List (Label π × Nat)) (S C : Label π → Prop)
    (reached' : StateSet) : Prop :=
  (∀ t ∈ reached'.toList, t ∈ reached.toList ∨ Targets edges S t) ∧
    ∀ t, t ∈ reached.toList ∨ Targets edges C t → t ∈ reached'.toList

theorem ensures_follow (h : Label.MetWithin P x may S C) (edges : List (Label π × Nat))
    (reached : StateSet) :
    (follow P x edges reached).Ensures may (Between reached edges S C) := by
  induction edges generalizing reached with
  | nil =>
    exact ensures_pure ⟨fun t ht => Or.inl ht, fun t ht => ht.resolve_right (by simp [Targets])⟩
  | cons edge edges ih =>
    obtain ⟨label, target⟩ := edge
    refine (h label).bind ?_
    intro passes hpasses
    refine (ih (if passes then reached.insert target else reached)).mono ?_
    rintro reached' ⟨hsound, hcomplete⟩
    constructor
    · -- Only the target of an edge that was passed is new.
      intro t ht
      rcases hsound t ht with ht | ⟨edge, hedge, htarget, hS⟩
      · cases passes with
        | true =>
          rcases StateSet.mem_toList_insert.1 ht with ht | rfl
          · exact Or.inl ht
          · exact Or.inr ⟨(label, t), List.mem_cons_self, rfl, hpasses.1 rfl⟩
        | false => exact Or.inl ht
      · exact Or.inr ⟨edge, List.mem_cons_of_mem _ hedge, htarget, hS⟩
    · -- An edge that has to be passed was passed.
      intro t ht
      refine hcomplete t ?_
      rcases ht with ht | ⟨edge, hedge, htarget, hC⟩
      · cases passes with
        | true => exact Or.inl (StateSet.mem_toList_insert.2 (Or.inl ht))
        | false => exact Or.inl ht
      · rcases List.mem_cons.1 hedge with rfl | hedge
        · subst htarget
          rw [hpasses.2 hC]
          exact Or.inl (StateSet.mem_toList_insert.2 (Or.inr rfl))
        · exact Or.inr ⟨edge, hedge, htarget, hC⟩

/-- The targets of the edges by which active states read. -/
def Read (A : Automaton π) (active : List Nat) (T : Label π → Prop) (t : Nat) : Prop :=
  ∃ q ∈ active, ∃ state, A.state? q = some state ∧ Targets state.reading T t

theorem ensures_followAll (A : Automaton π) (h : Label.MetWithin P x may S C) (active : List Nat)
    (hactive : ∀ q ∈ active, q < A.size) (reached : StateSet) :
    (A.followAll P x active reached).Ensures may fun reached' =>
      (∀ t ∈ reached'.toList, t ∈ reached.toList ∨ A.Read active S t) ∧
        ∀ t, t ∈ reached.toList ∨ A.Read active C t → t ∈ reached'.toList := by
  induction active generalizing reached with
  | nil => exact ensures_pure ⟨fun t ht => Or.inl ht, fun t ht => ht.resolve_right (by simp [Read])⟩
  | cons q active ih =>
    obtain ⟨state, hq⟩ := exists_state_of_lt (hactive q List.mem_cons_self)
    simp only [followAll, hq]
    have hactive' : ∀ r ∈ active, r < A.size := fun r hr => hactive r (List.mem_cons_of_mem q hr)
    refine (ensures_follow h state.reading reached).bind ?_
    intro middle hmiddle
    refine (ih hactive' middle).mono ?_
    rintro reached' ⟨hsound, hcomplete⟩
    constructor
    · intro t ht
      rcases hsound t ht with ht | ⟨r, hr, hread⟩
      · rcases hmiddle.1 t ht with ht | htargets
        · exact Or.inl ht
        · exact Or.inr ⟨q, List.mem_cons_self, state, hq, htargets⟩
      · exact Or.inr ⟨r, List.mem_cons_of_mem q hr, hread⟩
    · intro t ht
      refine hcomplete t ?_
      rcases ht with ht | ⟨r, hr, state', hr', htargets⟩
      · exact Or.inl (hmiddle.2 t (Or.inl ht))
      · rcases List.mem_cons.1 hr with rfl | hr
        · rw [hq] at hr'
          cases hr'
          exact Or.inl (hmiddle.2 t (Or.inr htargets))
        · exact Or.inr ⟨r, hr, state', hr', htargets⟩

/-- A step comes to targets of reading edges of the active states. -/
theorem ensures_step (A : Automaton π) (h : Label.MetWithin P x may S C) {active : StateSet}
    (hactive : ∀ q ∈ active.toList, q < A.size) :
    (A.step P active x).Ensures may fun seeds =>
      (∀ t ∈ seeds.toList, A.Read active.toList S t) ∧
        ∀ t, A.Read active.toList C t → t ∈ seeds.toList := by
  refine (A.ensures_followAll h active.toList hactive ∅).mono ?_
  rintro seeds ⟨hsound, hcomplete⟩
  constructor
  · -- The set that the step begins with is empty.
    intro t ht
    exact (hsound t ht).resolve_left (by simp)
  · intro t ht
    exact hcomplete t (Or.inr ht)

theorem Linked.lt_of_read {A : Automaton π} (hA : A.Linked) {active : List Nat}
    {T : Label π → Prop} {t : Nat} (h : A.Read active T t) : t < A.size := by
  obtain ⟨q, -, state, hq, edge, hedge, rfl, -⟩ := h
  exact hA.reading_lt q state hq edge hedge

/-- With no state active nothing is evaluated and nothing is reached. -/
theorem step_of_toList_eq_nil (A : Automaton π) {active : StateSet} (h : active.toList = [])
    (x : α) : A.step P active x = pure ∅ := by
  rw [step, h, followAll]

end Automaton

end Step

end Motif
