/-
Which predicates an attempt evaluates, and in which order.

Predicates may remember what they were asked, so the order in which an attempt evaluates
them is a part of its behaviour. It can be told without an attempt (`Asks`): for each
element that is consumed there is one block of evaluations. A block goes through the
states that are active at its position, in the order in which the recursive search finds
them from the targets of the block before, and through the reading edges of each in their
order. No edge is left out because its target was reached already. The blocks end where
no state is active, where a lazy matcher has found its match, or with the input.

That an attempt does this, and nothing else, is an induction on the elements ahead
(`Attempt.exists_asks_feed`). Since no state is active twice at one position, no block
has more evaluations than the automaton has edges with predicates, and so the record of
an attempt is linear in what lies ahead, however deep the repetitions are nested.
-/
import Mathlib.Data.List.Flatten
import Mathlib.Data.List.Perm.Subperm
import Motif.Proofs.Preorder
import Motif.Proofs.Tiling

set_option autoImplicit false

namespace Motif

variable {π α μ ε : Type}

/-! ## Edges and their predicates -/

/-- The predicate that is evaluated for a label, if there is one. -/
def Label.handle? : Label π → Option π
  | .any => none
  | .predicate handle => some handle

namespace Automaton

/-- The reading edges of the states of a list, state by state. -/
def edges (A : Automaton π) (states : List Nat) : List (Label π × Nat) :=
  states.flatMap fun q => ((A.state? q).map State.reading).getD []

/-- The predicates on the reading edges of the states of a list, edge by edge. -/
def handles (A : Automaton π) (states : List Nat) : List π :=
  (A.edges states).filterMap fun edge => edge.1.handle?

/-- The predicates on all edges of the automaton. -/
def allHandles (A : Automaton π) : List π := A.handles (List.range A.size)

/-- States that are listed once have no more edges than the automaton. -/
theorem length_handles_le (A : Automaton π) {states : List Nat} (hnodup : states.Nodup)
    (hlt : ∀ q ∈ states, q < A.size) : (A.handles states).length ≤ A.allHandles.length := by
  obtain ⟨listed, hperm, hsublist⟩ : states.Subperm (List.range A.size) :=
    hnodup.subperm fun q hq => List.mem_range.2 (hlt q hq)
  have hedges : (A.edges listed).Perm (A.edges states) := hperm.flatMap_right _
  have hsome : (A.edges listed).Sublist (A.edges (List.range A.size)) := hsublist.flatMap _
  calc (A.handles states).length
      = (A.handles listed).length := (hedges.filterMap _).length_eq.symm
    _ ≤ A.allHandles.length := (hsome.filterMap _).length_le

end Automaton

/-! ## One element -/

/-- The surroundings after some evaluations have been made. -/
def Env.after (env : Env π α μ) (asked : List (π × α)) (memory : μ) : Env π α μ :=
  { env with memory, calls := env.calls ++ asked.toArray }

theorem Env.after_nil (env : Env π α μ) : env.after [] env.memory = env := by
  simp [after]

theorem Env.after_after (env : Env π α μ) (asked asked' : List (π × α)) (memory memory' : μ) :
    (env.after asked memory).after asked' memory' = env.after (asked ++ asked') memory' := by
  simp [after, Array.append_assoc]

/-- What it comes to when an element is tried at edges one after the other: the targets of
those that it passes, and the memory of the predicates afterwards. -/
inductive Reads (P : Predicates π α μ ε) (x : α) :
    List (Label π × Nat) → (memory : μ) → (targets : List Nat) → (memory' : μ) → Prop where
  | done {memory : μ} : Reads P x [] memory [] memory
  | any {target : Nat} {edges : List (Label π × Nat)} {memory memory' : μ} {targets : List Nat}
    (h : Reads P x edges memory targets memory') :
    Reads P x ((.any, target) :: edges) memory (target :: targets) memory'
  | pass {handle : π} {target : Nat} {edges : List (Label π × Nat)} {memory memory₁ memory' : μ}
    {targets : List Nat} (htest : P.test handle x memory = (.ok true, memory₁))
    (h : Reads P x edges memory₁ targets memory') :
    Reads P x ((.predicate handle, target) :: edges) memory (target :: targets) memory'
  | miss {handle : π} {target : Nat} {edges : List (Label π × Nat)} {memory memory₁ memory' : μ}
    {targets : List Nat} (htest : P.test handle x memory = (.ok false, memory₁))
    (h : Reads P x edges memory₁ targets memory') :
    Reads P x ((.predicate handle, target) :: edges) memory targets memory'

section Reads

variable {P : Predicates π α μ ε} {x : α} {edges : List (Label π × Nat)} {memory memory' : μ}
  {targets : List Nat}

/-- The answers leave no choice. -/
theorem Reads.unique (h : Reads P x edges memory targets memory') {targets' : List Nat}
    {memory'' : μ} (h' : Reads P x edges memory targets' memory'') :
    targets = targets' ∧ memory' = memory'' := by
  -- A predicate gives one answer in one memory, so the two ways of reading an edge exclude
  -- each other.
  induction h generalizing targets' memory'' with
  | done =>
    cases h'
    exact ⟨rfl, rfl⟩
  | any _ ih =>
    cases h' with
    | any h' =>
      obtain ⟨rfl, rfl⟩ := ih h'
      exact ⟨rfl, rfl⟩
  | pass htest _ ih =>
    cases h' with
    | pass htest' h' =>
      rw [htest] at htest'
      cases htest'
      obtain ⟨rfl, rfl⟩ := ih h'
      exact ⟨rfl, rfl⟩
    | miss htest' =>
      rw [htest] at htest'
      cases htest'
  | miss htest _ ih =>
    cases h' with
    | pass htest' =>
      rw [htest] at htest'
      cases htest'
    | miss htest' h' =>
      rw [htest] at htest'
      cases htest'
      exact ih h'

theorem Predicates.NeverPanics.exists_test (hP : P.NeverPanics) (handle : π) (x : α)
    (memory : μ) : ∃ b memory', P.test handle x memory = (.ok b, memory') := by
  rcases htest : P.test handle x memory with ⟨result, memory'⟩
  cases result with
  | ok b => exact ⟨b, memory', rfl⟩
  | error reason =>
    exact (hP handle x memory reason (congrArg Prod.fst htest)).elim

namespace Automaton

/-- Every edge is tried, in order, and the targets that are reached are added in order. -/
theorem exists_reads_follow (hP : P.NeverPanics) (x : α) (edges : List (Label π × Nat))
    (reached : StateSet) (env : Env π α μ) :
    ∃ targets memory, Reads P x edges env.memory targets memory ∧
      (follow P x edges reached).outcome env =
        (.ok (targets.foldl StateSet.insert reached),
          env.after ((edges.filterMap fun edge => edge.1.handle?).map (·, x)) memory) := by
  induction edges generalizing reached env with
  | nil => exact ⟨[], env.memory, .done, congrArg (Prod.mk _) env.after_nil.symm⟩
  | cons edge edges ih =>
    obtain ⟨label, target⟩ := edge
    cases label with
    | any =>
      obtain ⟨targets, memory, hreads, houtcome⟩ := ih (reached.insert target) env
      exact ⟨target :: targets, memory, .any hreads, houtcome⟩
    | predicate handle =>
      obtain ⟨b, memory₁, htest⟩ := hP.exists_test handle x env.memory
      have hanswer : (Label.accepts P x (.predicate handle)).outcome env =
          (.ok b, env.after [(handle, x)] memory₁) := by
        rw [Label.accepts, Run.outcome_evaluate, htest]
        rfl
      obtain ⟨targets, memory, hreads, houtcome⟩ :=
        ih (if b then reached.insert target else reached) (env.after [(handle, x)] memory₁)
      rw [Env.after_after] at houtcome
      rw [follow, Run.outcome_bind_of_ok hanswer, houtcome]
      cases b with
      | true => exact ⟨target :: targets, memory, .pass htest hreads, rfl⟩
      | false => exact ⟨targets, memory, .miss htest hreads, rfl⟩

theorem follow_append (P : Predicates π α μ ε) (x : α) (edges edges' : List (Label π × Nat))
    (reached : StateSet) :
    follow P x (edges ++ edges') reached = follow P x edges reached >>= follow P x edges' := by
  induction edges generalizing reached with
  | nil => rw [List.nil_append, follow, pure_bind]
  | cons edge edges ih =>
    rw [List.cons_append, follow, follow, bind_assoc]
    exact congrArg _ (funext fun passes => ih _)

/-- Trying the edges of states one state after the other is trying all of the edges. -/
theorem followAll_eq_follow (A : Automaton π) (P : Predicates π α μ ε) (x : α) (active : List Nat)
    (hactive : ∀ q ∈ active, q < A.size) (reached : StateSet) :
    A.followAll P x active reached = follow P x (A.edges active) reached := by
  induction active generalizing reached with
  | nil => rfl
  | cons q active ih =>
    obtain ⟨state, hq⟩ := exists_state_of_lt (hactive q List.mem_cons_self)
    have hedges : A.edges (q :: active) = state.reading ++ A.edges active := by
      rw [edges, List.flatMap_cons, hq]
      rfl
    simp only [followAll, hq]
    rw [hedges, follow_append]
    exact congrArg _ (funext fun reached =>
      ih (fun r hr => hactive r (List.mem_cons_of_mem q hr)) reached)

/-- **One element** is tried at every reading edge of every active state. -/
theorem exists_reads_step (A : Automaton π) (hP : P.NeverPanics) {active : StateSet}
    (hactive : ∀ q ∈ active.toList, q < A.size) (x : α) (env : Env π α μ) :
    ∃ targets memory, Reads P x (A.edges active.toList) env.memory targets memory ∧
      (A.step P active x).outcome env =
        (.ok (StateSet.ofList targets),
          env.after ((A.handles active.toList).map (·, x)) memory) := by
  rw [step, followAll_eq_follow A P x active.toList hactive]
  exact exists_reads_follow hP x _ ∅ env

end Automaton

end Reads

/-! ## A whole attempt -/

/-- Nothing that follows is of interest: no state is active, or a lazy matcher has found a
match. -/
def Matcher.Over (m : Matcher π) (active : List Nat) : Prop :=
  active = [] ∨ m.automaton.accept ∈ active ∧ m.greedy = false

/-- The evaluations of an attempt that goes on at `position`, in an input of length
`length`, from the states that the last element has led to; one block for each element
that is consumed. -/
inductive Asks (m : Matcher π) (P : Predicates π α μ ε) (length : Nat) :
    (position : Nat) → (targets : List Nat) → (ahead : List α) → (memory : μ) →
      (blocks : List (List (π × α))) → (memory' : μ) → Prop where
  /-- The attempt ends here. -/
  | finished {position : Nat} {targets active : List Nat} {ahead : List α} {memory : μ}
    (hactive : m.automaton.Visits position (some length) targets [] active)
    (hover : ahead = [] ∨ m.Over active) : Asks m P length position targets ahead memory [] memory
  /-- The element is tried at every reading edge of every active state. -/
  | block {position : Nat} {targets active targets' : List Nat} {x : α} {ahead : List α}
    {memory memory₁ memory' : μ} {blocks : List (List (π × α))}
    (hactive : m.automaton.Visits position (some length) targets [] active)
    (hon : ¬ m.Over active)
    (hreads : Reads P x (m.automaton.edges active) memory targets' memory₁)
    (h : Asks m P length (position + 1) targets' ahead memory₁ blocks memory') :
    Asks m P length position targets (x :: ahead) memory
      ((m.automaton.handles active).map (·, x) :: blocks) memory'

namespace Asks

variable {m : Matcher π} {P : Predicates π α μ ε} {length position : Nat} {targets : List Nat}
  {ahead : List α} {memory memory' : μ} {blocks : List (List (π × α))}

/-- The evaluations are determined by where the attempt stands and by what the predicates
answer. -/
theorem unique (h : Asks m P length position targets ahead memory blocks memory')
    {blocks' : List (List (π × α))} {memory'' : μ}
    (h' : Asks m P length position targets ahead memory blocks' memory'') :
    blocks = blocks' ∧ memory' = memory'' := by
  induction h generalizing blocks' memory'' with
  | finished hactive hover =>
    cases h' with
    | finished => exact ⟨rfl, rfl⟩
    | block hactive' hon =>
      rw [hactive.unique hactive'] at hover
      rcases hover with hnil | hover
      · cases hnil
      · exact absurd hover hon
  | block hactive hon hreads _ ih =>
    cases h' with
    | finished hactive' hover =>
      rw [← hactive.unique hactive'] at hover
      rcases hover with hnil | hover
      · cases hnil
      · exact absurd hover hon
    | block hactive' _ hreads' h' =>
      cases hactive.unique hactive'
      obtain ⟨rfl, rfl⟩ := hreads.unique hreads'
      obtain ⟨rfl, rfl⟩ := ih h'
      exact ⟨rfl, rfl⟩

/-- **No attempt evaluates much.** For each element there are at most as many evaluations as
there are edges with predicates. -/
theorem length_flatten_le (h : Asks m P length position targets ahead memory blocks memory') :
    blocks.flatten.length ≤ m.automaton.allHandles.length * ahead.length := by
  induction h with
  | finished => exact Nat.zero_le _
  | @block _ _ active _ x ahead _ _ _ blocks hactive _ _ _ ih =>
    have hlt : ∀ q ∈ active, q < m.automaton.size := by
      intro q hq
      obtain ⟨state, hstate, -⟩ := (hactive.isOpen hq).resolve_left List.not_mem_nil
      exact Automaton.lt_size_of_state? hstate
    have hblock := m.automaton.length_handles_le (hactive.nodup List.nodup_nil) hlt
    rw [List.flatten_cons, List.length_append, List.length_map, List.length_cons, Nat.mul_succ]
    omega

end Asks

namespace Attempt

variable {m : Matcher π} {P : Predicates π α μ ε} {a : Attempt}

/-- With the length known, an attempt lives on unless it is over. -/
theorem alive_withClosure_iff {c : Closure} (hdeferred : c.deferred = false) :
    (a.withClosure m c).alive = true ↔ ¬ m.Over c.states.toList := by
  unfold withClosure settled Matcher.Over
  rw [hdeferred, Bool.or_false, StateSet.contains_eq_decide, StateSet.isEmpty_eq]
  by_cases haccept : m.automaton.accept ∈ c.states.toList
  · have hne : c.states.toList ≠ [] := List.ne_nil_of_mem haccept
    cases hgreedy : m.greedy <;> simp [haccept, hne]
  · simp [haccept]

/-- **An attempt asks its questions in order.** The induction is on the elements ahead; the
active states are those that the recursive search finds from the last targets. -/
theorem exists_asks_feed (hm : m.automaton.Linked) (hP : P.NeverPanics) {l : Nat} (ahead : List α)
    {targets : List Nat} (h : a.Fits m)
    (hactive : m.automaton.Visits a.position (some l) targets [] a.active.toList)
    (halive : a.alive = true ↔ ¬ m.Over a.active.toList) (env : Env π α μ) :
    ∃ a' blocks memory, Asks m P l a.position targets ahead env.memory blocks memory ∧
      (a.feed P m (some l) ahead).outcome env = (.ok a', env.after blocks.flatten memory) := by
  induction ahead generalizing a targets env with
  | nil => exact ⟨a, [], env.memory, .finished hactive (Or.inl rfl), congrArg _ env.after_nil.symm⟩
  | cons x ahead ih =>
    by_cases hover : m.Over a.active.toList
    · have hdead : a.alive = false := Bool.eq_false_iff.2 fun h => halive.1 h hover
      refine ⟨a, [], env.memory, .finished hactive (Or.inr hover), ?_⟩
      rw [feed_of_dead P m (some l) _ hdead]
      exact congrArg _ env.after_nil.symm
    · obtain ⟨targets', memory₁, hreads, hstep⟩ :=
        m.automaton.exists_reads_step hP h.active_lt x env
      -- The targets are states, so their closure is found.
      have hlt : ∀ q ∈ (StateSet.ofList targets').toList, q < m.automaton.size := by
        have hread := (m.automaton.ensures_step (Label.metWithin_all (x := x) hP)
          h.active_lt).returns env _ (congrArg Prod.fst hstep)
        exact fun q hq => hm.lt_of_read (hread.1 q hq)
      obtain ⟨c, hclosure, hrefresh, hfits⟩ := exists_refresh_eq_ok (m := m)
        (a := { a with seeds := StateSet.ofList targets', position := a.position + 1 }) hm hlt
        (Nat.le_succ_of_le h.start_le) (fun n hn => Nat.le_succ_of_le (h.best_le n hn)) (some l)
      obtain ⟨a', blocks, memory, hasks, hfeed⟩ := ih hfits
        (Automaton.visits_of_closure hclosure).of_ofList
        (alive_withClosure_iff (Automaton.closure_some_deferred hclosure))
        (env.after ((m.automaton.handles a.active.toList).map (·, x)) memory₁)
      refine ⟨a', _, memory, .block hactive hover hreads hasks, ?_⟩
      rw [Env.after_after] at hfeed
      rw [feed, if_pos (halive.2 hover), advance_of_alive (halive.2 hover), bind_assoc,
        Run.outcome_bind_of_ok hstep, hrefresh, Run.ofChecked_ok_bind, hfeed, List.flatten_cons]

end Attempt

/-! ## The record of an attempt -/

namespace Matcher

/-- **What an attempt asks.** The evaluations made for the preferred length at an offset
are one block for each element that is consumed: every predicate on a reading edge of an
active state, in the order in which the recursive search finds the states from what the
element before has led to. No attempt makes more evaluations for an element than the
automaton has edges with predicates. -/
theorem exists_lengthAt_asks (p : Pattern π) {P : Predicates π α μ ε} (hP : P.NeverPanics)
    (input : List α) {offset : Nat} (h : offset ≤ input.length) (env : Env π α μ) :
    ∃ best blocks memory,
      Asks (ofPattern p) P input.length offset [(ofPattern p).automaton.start]
        (input.drop offset) env.memory blocks memory ∧
      ((ofPattern p).lengthAt P input offset).outcome env =
        (.ok best, env.after blocks.flatten memory) ∧
      (∀ blocks' memory', Asks (ofPattern p) P input.length offset
        [(ofPattern p).automaton.start] (input.drop offset) env.memory blocks' memory' →
          blocks' = blocks ∧ memory' = memory) ∧
      blocks.flatten.length ≤
        (ofPattern p).automaton.allHandles.length * (input.length - offset) := by
  have hm : (ofPattern p).automaton.Linked := Automaton.linked_ofPattern p
  have hlength : offset + (input.drop offset).length = input.length := by
    rw [List.length_drop]
    omega
  -- The first closure is the one that the attempt begins with; from there on the elements
  -- are taken one by one.
  have hfirst : ∀ q ∈ (StateSet.ofList [(ofPattern p).automaton.start]).toList,
      q < (ofPattern p).automaton.size := by
    simp [hm.start_lt]
  obtain ⟨c, hclosure, hrefresh, hfits⟩ := Attempt.exists_refresh_eq_ok (m := ofPattern p)
    (a := { start := offset, position := offset,
            seeds := StateSet.ofList [(ofPattern p).automaton.start], active := ∅,
            best := none, alive := true })
    hm hfirst (Nat.le_refl offset) (by simp) (some input.length)
  obtain ⟨a, blocks, memory, hasks, hfeed⟩ := Attempt.exists_asks_feed hm hP (input.drop offset)
    hfits (Automaton.visits_of_closure hclosure).of_ofList
    (Attempt.alive_withClosure_iff (Automaton.closure_some_deferred hclosure)) env
  refine ⟨a.best, blocks, memory, hasks, ?_, ?_, ?_⟩
  · have hbegin : Attempt.begin (ofPattern p) (some input.length) offset = .ok _ := hrefresh
    rw [lengthAt_of_le h, lengthAhead, Attempt.run, hlength, hbegin, Run.ofChecked_ok_bind,
      Run.outcome_bind_of_ok hfeed]
    rfl
  · intro blocks' memory' hasks'
    obtain ⟨rfl, rfl⟩ := hasks.unique hasks'
    exact ⟨rfl, rfl⟩
  · rw [← List.length_drop]
    exact hasks.length_flatten_le

/-- Two elements are asked about twice at most by a repetition inside of a repetition. -/
theorem exists_lengthAt_asks_star_star :
    (Predicates.ofTest (fun _ b => b) : Predicates Unit Bool Unit Unit).NeverPanics ∧
      0 ≤ [true, false].length ∧
      ∃ best blocks,
        Asks (ofPattern (Pattern.predicate ()).star.star)
          (.ofTest (fun _ b => b) : Predicates Unit Bool Unit Unit) 2 0 [0] [true, false] ()
          blocks () ∧
        ((ofPattern (Pattern.predicate ()).star.star).lengthAt
          (.ofTest (fun _ b => b) : Predicates Unit Bool Unit Unit) [true, false] 0).outcome
            ⟨(), #[], #[]⟩ = (.ok best, ⟨(), blocks.flatten.toArray, #[]⟩) ∧
        blocks.flatten.length ≤ 2 := by
  have hnever := (Predicates.answers_ofTest (μ := Unit) (ε := Unit)
    (fun (_ : Unit) (b : Bool) => b)).neverPanics
  refine ⟨hnever, by decide, ?_⟩
  obtain ⟨best, blocks, memory, hasks, houtcome, -, hlength⟩ :=
    exists_lengthAt_asks (Pattern.predicate ()).star.star hnever [true, false]
      (Nat.zero_le [true, false].length) ⟨(), #[], #[]⟩
  refine ⟨best, blocks, hasks, ?_, hlength⟩
  rw [houtcome]
  simp [Env.after]

end Matcher

end Motif
