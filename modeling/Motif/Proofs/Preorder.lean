/-
The order of a closure.

A closure is searched with a stack on which the targets of a state are put before
everything that still waits. The order in which it finds its states is that of a search
that calls itself: it goes through the states to visit from left to right, skips a state
that was found or may not be entered, and otherwise notes it down and first visits all of
its targets (`Visits`). The states found so far are handed from each visit to the next,
so no state is visited twice.

The two meet in one observation. To visit one list behind another is to visit their
concatenation, and that is what the stack holds. The states that the stack search sets
aside because they may not be entered make no difference, since they could not be entered
later either.

With what a closure contains, that says all there is to say about one
(`closureInto_eq_visits`), on any graph and in whatever storage it is searched.
-/
import Motif.Proofs.Closure

set_option autoImplicit false

namespace Motif

variable {π : Type}

namespace Automaton

/-- The recursive search. Visiting the states of a list one after the other, depth first,
leads from the states found before to the states found afterwards. -/
inductive Visits (A : Automaton π) (index : Nat) (length : Option Nat) :
    (todo found found' : List Nat) → Prop where
  | done {found : List Nat} : Visits A index length [] found found
  /-- A state that was found before is skipped. -/
  | seen {q : Nat} {todo found found' : List Nat} (hq : q ∈ found)
    (h : Visits A index length todo found found') : Visits A index length (q :: todo) found found'
  /-- A state that may not be entered cuts the search off. -/
  | shut {q : Nat} {todo found found' : List Nat} (hq : ¬ A.Open index length q)
    (h : Visits A index length todo found found') : Visits A index length (q :: todo) found found'
  /-- Any other state is found, and its targets are visited before what comes after it. -/
  | enter {q : Nat} {todo found inner found' : List Nat} {state : State π} (hq : q ∉ found)
    (hstate : A.state? q = some state) (hopen : state.admits index length = true)
    (hinner : Visits A index length state.silent (found ++ [q]) inner)
    (h : Visits A index length todo inner found') : Visits A index length (q :: todo) found found'

variable {A : Automaton π} {index : Nat} {length : Option Nat}

namespace Visits

variable {todo todo' found found' : List Nat}

/-! ## What the search finds -/

/-- Nothing that was found is forgotten or moved. -/
theorem isPrefix (h : A.Visits index length todo found found') : found <+: found' := by
  induction h with
  | done => exact List.prefix_refl _
  | seen _ _ ih => exact ih
  | shut _ _ ih => exact ih
  | enter _ _ _ _ _ ihinner ih => exact (List.prefix_append _ _).trans (ihinner.trans ih)

/-- No state is found twice. -/
theorem nodup (h : A.Visits index length todo found found') (hfound : found.Nodup) :
    found'.Nodup := by
  induction h with
  | done => exact hfound
  | seen _ _ ih => exact ih hfound
  | shut _ _ ih => exact ih hfound
  | enter hq _ _ _ _ ihinner ih =>
    refine ih (ihinner ?_)
    rw [List.nodup_append]
    refine ⟨hfound, by simp, fun r hr t ht hrt => hq ?_⟩
    rw [← List.mem_singleton.1 ht, ← hrt]
    exact hr

/-- Only states that may be entered are found. -/
theorem isOpen (h : A.Visits index length todo found found') {q : Nat} (hq : q ∈ found') :
    q ∈ found ∨ A.Open index length q := by
  induction h with
  | done => exact Or.inl hq
  | seen _ _ ih => exact ih hq
  | shut _ _ ih => exact ih hq
  | enter _ hstate hopen _ _ ihinner ih =>
    rcases ih hq with hq | hq
    · rcases ihinner hq with hq | hq
      · rcases List.mem_append.1 hq with hq | hq
        · exact Or.inl hq
        · rw [List.mem_singleton.1 hq]
          exact Or.inr ⟨_, hstate, hopen⟩
      · exact Or.inr hq
    · exact Or.inr hq

/-- A state that was to be visited is found, unless it may not be entered. -/
theorem mem_of_mem (h : A.Visits index length todo found found') {q : Nat} (hq : q ∈ todo)
    (hopen : A.Open index length q) : q ∈ found' := by
  induction h with
  | done => cases hq
  | seen hseen hrest ih =>
    rcases List.mem_cons.1 hq with rfl | hq
    · exact hrest.isPrefix.subset hseen
    · exact ih hq
  | shut hshut _ ih =>
    rcases List.mem_cons.1 hq with rfl | hq
    · exact absurd hopen hshut
    · exact ih hq
  | enter _ _ _ hinner hrest _ ih =>
    rcases List.mem_cons.1 hq with rfl | hq
    · exact hrest.isPrefix.subset (hinner.isPrefix.subset (by simp))
    · exact ih hq

/-- **There is only one way to search.** -/
theorem unique (h : A.Visits index length todo found found') {found'' : List Nat}
    (h' : A.Visits index length todo found found'') : found' = found'' := by
  induction h generalizing found'' with
  | done =>
    cases h'
    rfl
  | seen hq _ ih =>
    cases h' with
    | seen _ h' => exact ih h'
    | shut _ h' => exact ih h'
    | enter hq' => exact absurd hq hq'
  | shut hq _ ih =>
    cases h' with
    | seen _ h' => exact ih h'
    | shut _ h' => exact ih h'
    | enter _ hstate hopen => exact absurd ⟨_, hstate, hopen⟩ hq
  | enter hq hstate hopen _ _ ihinner ih =>
    cases h' with
    | seen hq' => exact absurd hq' hq
    | shut hq' => exact absurd ⟨_, hstate, hopen⟩ hq'
    | enter _ hstate' _ hinner' h' =>
      rw [hstate] at hstate'
      cases hstate'
      cases ihinner hinner'
      exact ih h'

/-! ## One list behind another -/

theorem append {middle : List Nat} (h : A.Visits index length todo found middle)
    (h' : A.Visits index length todo' middle found') :
    A.Visits index length (todo ++ todo') found found' := by
  induction h with
  | done => exact h'
  | seen hq _ ih => exact .seen hq (ih h')
  | shut hq _ ih => exact .shut hq (ih h')
  | enter hq hstate hopen hinner _ _ ih => exact .enter hq hstate hopen hinner (ih h')

theorem exists_middle (h : A.Visits index length (todo ++ todo') found found') :
    ∃ middle, A.Visits index length todo found middle ∧
      A.Visits index length todo' middle found' := by
  induction todo generalizing found with
  | nil => exact ⟨found, .done, h⟩
  | cons q todo ih =>
    cases h with
    | seen hq h =>
      obtain ⟨middle, hfirst, hsecond⟩ := ih h
      exact ⟨middle, .seen hq hfirst, hsecond⟩
    | shut hq h =>
      obtain ⟨middle, hfirst, hsecond⟩ := ih h
      exact ⟨middle, .shut hq hfirst, hsecond⟩
    | enter hq hstate hopen hinner h =>
      obtain ⟨middle, hfirst, hsecond⟩ := ih h
      exact ⟨middle, .enter hq hstate hopen hinner hfirst, hsecond⟩

/-- A state need not be visited again. -/
theorem insert_of_mem {q : Nat} (hq : q ∈ todo)
    (h : A.Visits index length (todo ++ todo') found found') :
    A.Visits index length (todo ++ q :: todo') found found' := by
  obtain ⟨middle, hfirst, hsecond⟩ := h.exists_middle
  refine hfirst.append ?_
  by_cases hopen : A.Open index length q
  · exact .seen (hfirst.mem_of_mem hq hopen) hsecond
  · exact .shut hopen hsecond

/-- It makes no difference whether repetitions are dropped before the search. -/
theorem of_foldl_insert {states : List Nat} {s : StateSet}
    (h : A.Visits index length (states.foldl StateSet.insert s).toList found found') :
    A.Visits index length (s.toList ++ states) found found' := by
  induction states generalizing s with
  | nil =>
    rw [List.append_nil]
    exact h
  | cons q states ih =>
    have hrest := ih h
    by_cases hq : q ∈ s.toList
    · rw [StateSet.toList_insert_of_mem hq] at hrest
      exact hrest.insert_of_mem hq
    · rw [StateSet.toList_insert_of_not_mem hq, List.append_assoc] at hrest
      exact hrest

theorem of_ofList {states : List Nat}
    (h : A.Visits index length (StateSet.ofList states).toList found found') :
    A.Visits index length states found found' := of_foldl_insert (s := ∅) h

end Visits

/-! ## The search with a stack -/

/-- The stack holds what is still to be visited. -/
theorem visits_of_explore {stack : List Nat} {closed : StateSet} {sofar c : Closure}
    (h : A.explore index length stack closed sofar = .ok c)
    (hshut : A.Shut index length closed) :
    A.Visits index length stack sofar.states.toList c.states.toList := by
  fun_induction A.explore index length stack closed sofar with
  | case1 closed sofar =>
    cases h
    exact .done
  | case2 closed sofar q stack hq ih => exact .seen hq (ih h hshut)
  | case3 closed sofar q stack _ hq ih => exact .shut (hshut q hq) (ih h hshut)
  | case4 => cases h
  | case5 closed sofar q stack hq _ state hstate hopen ih =>
    -- The targets were put on the stack, and before them the state was noted down.
    obtain ⟨inner, hinner, hrest⟩ := (ih h hshut).exists_middle
    rw [StateSet.toList_insert_of_not_mem hq] at hinner
    exact .enter hq hstate hopen hinner hrest
  | case6 closed sofar q stack _ _ state hstate hadmits ih =>
    have hclosed := not_open_of_not_admits hstate hadmits
    exact .shut hclosed (ih h (hshut.insert hclosed))

/-- **The order of a closure** is the order in which the recursive search finds its
states. -/
theorem visits_of_closure {seeds : List Nat} {c : Closure}
    (h : A.closure seeds index length = .ok c) :
    A.Visits index length seeds [] c.states.toList :=
  visits_of_explore h (by intro q hq; simp at hq)

/-! ## What a search with used storage gives -/

/-- **Closures are the ordered sets of the states that are led to**, on every graph whose
silent edges lead to states. What the storage held before makes no difference. If the seeds
are states, the search ends, and it lists every state that an open silent way from a seed
leads to, none twice, in the order of the recursive search and in no other. If some seeds are
no states, it stops with a fault at the first of them. -/
theorem closureInto_eq_visits (hA : A.SilentlyLinked) (out : StateSet) (scratch : Scratch)
    (seeds : List Nat) (index : Nat) (length : Option Nat) :
    A.closureInto out scratch seeds index length = A.closure seeds index length ∧
    ((∀ q ∈ seeds, q < A.size) →
      ∃ c, A.closureInto out scratch seeds index length = .ok c ∧
        c.states.toList.Nodup ∧
        (∀ r, r ∈ c.states.toList ↔ ∃ q ∈ seeds, A.Leads index length q r) ∧
        ∀ found, A.Visits index length seeds [] found ↔ found = c.states.toList) ∧
    ((∃ q ∈ seeds, A.size ≤ q) →
      ∃ q, seeds.find? (A.size ≤ ·) = some q ∧
        A.closureInto out scratch seeds index length = .error (.noSuchState q)) := by
  rw [closureInto_eq_closure]
  refine ⟨rfl, fun hseeds => ?_, ?_⟩
  · obtain ⟨c, hc⟩ : ∃ c, A.closure seeds index length = .ok c :=
      exists_explore_eq_ok hA ∅ {} hseeds
    have hvisits := visits_of_closure hc
    refine ⟨c, hc, c.states.nodup_toList, fun r => mem_closure_iff hc, fun found => ?_⟩
    -- The search with the stack is one way to search, and there is no other.
    constructor
    · exact fun h => h.unique hvisits
    · rintro rfl
      exact hvisits
  · rintro ⟨q, hq, hsize⟩
    obtain ⟨r, hr⟩ : ∃ r, seeds.find? (A.size ≤ ·) = some r :=
      Option.isSome_iff_exists.1 (List.find?_isSome.2 ⟨q, hq, by simpa using hsize⟩)
    exact ⟨r, hr, closure_eq_error hA hr index length⟩

/-- A cycle of three states, the second of which is entered at the start only, and a state
on a shorter cycle. -/
def gatedCycle : Automaton Unit where
  states := #[.junction [1, 3], .gate .atStart 2, .junction [0], .junction [0]]
  start := 0
  accept := 3

theorem silentlyLinked_gatedCycle : gatedCycle.SilentlyLinked := by
  intro q state hq t ht
  have hmem : state ∈ gatedCycle.states := Array.mem_of_getElem? hq
  simp only [gatedCycle, List.mem_toArray, List.mem_cons, List.not_mem_nil, or_false] at hmem
  change t < 4
  rcases hmem with rfl | rfl | rfl | rfl <;>
    simp only [State.junction, State.gate, List.mem_cons, List.not_mem_nil, or_false] at ht <;>
    omega

/-- Behind the start of the input the gate of the cycle is shut. The seeds come in their order,
the third is found already, and nothing that was in the storage has an effect. With a number
that is no state among the seeds there is a fault. -/
theorem closureInto_gatedCycle :
    (∃ c, gatedCycle.closureInto (.ofList [1, 2]) { stack := [2], closed := .ofList [3, 0] }
        [3, 0, 3] 1 none = .ok c ∧ c.states.toList = [3, 0]) ∧
      gatedCycle.closureInto (.ofList [1, 2]) { stack := [2], closed := .ofList [3, 0] }
        [0, 7, 9] 1 none = .error (.noSuchState 7) := by
  constructor
  · obtain ⟨c, hc, -, -, horder⟩ := (closureInto_eq_visits silentlyLinked_gatedCycle
      (.ofList [1, 2]) { stack := [2], closed := .ofList [3, 0] } [3, 0, 3] 1 none).2.1 (by decide)
    refine ⟨c, hc, ((horder [3, 0]).1 ?_).symm⟩
    -- State 1 has the gate, and the other states that are come to were found before.
    have hshut : ¬ gatedCycle.Open 1 none 1 := by
      rintro ⟨state, hstate, hopen⟩
      cases hstate
      cases hopen
    have hinner : gatedCycle.Visits 1 none [1, 3] [3, 0] [3, 0] :=
      .shut hshut (.seen (by decide) .done)
    have hzero : gatedCycle.Visits 1 none [0] [3] [3, 0] :=
      .enter (by decide) rfl rfl hinner .done
    exact .enter (by decide) rfl rfl hzero (.seen (by decide) (.seen (by decide) .done))
  · obtain ⟨q, hq, herror⟩ := (closureInto_eq_visits silentlyLinked_gatedCycle
      (.ofList [1, 2]) { stack := [2], closed := .ofList [3, 0] } [0, 7, 9] 1 none).2.2
      ⟨7, by decide, by decide⟩
    cases hq
    exact herror

end Automaton

end Motif
