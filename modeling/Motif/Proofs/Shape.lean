/-
The shape of the automaton of a pattern.

Three kinds of states are laid out: one that reads, one that leads on where an anchor
holds, and one that leads on anywhere, to two states at most (`State.Regular`). Which edges
leave an exit is decided by the parent, and no parent asks for more than two; that is all
that has to be carried through the tree (`regular_layout`).

No state is laid out in vain. Within a block, edges lead from the entry to every state and
from every state to the exit, as long as nobody asks whether an edge can be followed
(`connected_layout`). For a repetition that is a walk along the junctions. The way in goes
through one copy after the other. The way out goes on to the next copy while copies have to
be made, and round the loop once if the state lies behind the junction at which the loop is
left; a repetition of no copies at all still leads from its entry to its exit.
-/
import Mathlib.Logic.Relation
import Motif.Proofs.Blocks

set_option autoImplicit false

namespace Motif

variable {π : Type}

/-! ## The kinds of states -/

/-- The states of which layouts are made. -/
inductive State.Regular : State π → Prop where
  /-- One reading edge. -/
  | reader (label : Label π) (target : Nat) : Regular (.reader label target)
  /-- One silent edge, behind an anchor. -/
  | gate (condition : Anchor) (target : Nat) : Regular (.gate condition target)
  /-- Silent edges to at most two states. -/
  | junction {onward : List Nat} (h : onward.length ≤ 2) : Regular (.junction onward)

/-- No junction of a repetition has more than two edges. -/
theorem CopyPlan.length_onward_le (plan : CopyPlan) (k : Nat) : (plan.onward k).length ≤ 2 := by
  have hchoice : (plan.choice k).length = 2 := by
    unfold choice
    split <;> rfl
  unfold onward
  split
  · simp
  · split
    · split <;> simp [hchoice]
    · split <;> simp [hchoice]

namespace Pattern

/-- A block of two states is regular if its entry is. -/
theorem regular_pair {onward : List Nat} {entry : State π} (hentry : entry.Regular)
    (honward : onward.length ≤ 2) : ∀ state ∈ [entry, .junction onward], state.Regular := by
  intro state hstate
  rcases List.mem_cons.1 hstate with rfl | hstate
  · exact hentry
  · rw [List.mem_singleton.1 hstate]
    exact .junction honward

mutual
/-- **Only regular states are laid out**, wherever the block leads. -/
theorem regular_layout : (p : Pattern π) → (base : Nat) → (onward : List Nat) →
    onward.length ≤ 2 → ∀ state ∈ layout p base onward, state.Regular
  | predicate handle, base, onward, honward => regular_pair (.reader _ _) honward
  | any, base, onward, honward => regular_pair (.reader _ _) honward
  | anchor condition, base, onward, honward => regular_pair (.gate _ _) honward
  | sequence children, base, onward, honward => regular_layoutSequence children base onward honward
  | alternation left right, base, onward, honward => by
    intro state hstate
    simp only [layout, List.mem_append, List.mem_cons, List.not_mem_nil, or_false] at hstate
    rcases hstate with ((rfl | hstate) | hstate) | rfl
    · exact .junction (Nat.le_refl 2)
    · exact regular_layout left _ _ (by simp) state hstate
    · exact regular_layout right _ _ (by simp) state hstate
    · exact .junction honward
  | repetition child min max greedy, base, onward, honward => by
    intro state hstate
    rcases mem_layout_repetition hstate with rfl | rfl | ⟨k, -, hstate⟩
    · exact .junction (CopyPlan.length_onward_le _ 0)
    · exact .junction honward
    · exact regular_layout child _ _ (CopyPlan.length_onward_le _ (k + 1)) state hstate

theorem regular_layoutSequence : (ps : List (Pattern π)) → (base : Nat) → (onward : List Nat) →
    onward.length ≤ 2 → ∀ state ∈ layoutSequence ps base onward, state.Regular
  | [], base, onward, honward => regular_pair (.junction (by simp)) honward
  | [child], base, onward, honward => regular_layout child base onward honward
  | child :: next :: rest, base, onward, honward => by
    intro state hstate
    rcases List.mem_append.1 hstate with hstate | hstate
    · exact regular_layout child _ _ (by simp) state hstate
    · exact regular_layoutSequence (next :: rest) _ _ honward state hstate
end

end Pattern

/-! ## Edges, whoever may follow them -/

namespace Automaton

/-- An edge leads from one state to the other. Whether it can be followed is not asked. -/
def Adjacent (A : Automaton π) (q t : Nat) : Prop :=
  ∃ state, A.state? q = some state ∧ (t ∈ state.silent ∨ ∃ edge ∈ state.reading, edge.2 = t)

/-- A way of edges leads from one state to the other. -/
def Connected (A : Automaton π) : Nat → Nat → Prop := Relation.ReflTransGen A.Adjacent

variable {A : Automaton π} {q r t : Nat}

theorem Connected.refl (A : Automaton π) (q : Nat) : A.Connected q q := Relation.ReflTransGen.refl

theorem Connected.trans (h : A.Connected q r) (h' : A.Connected r t) : A.Connected q t :=
  Relation.ReflTransGen.trans h h'

/-- The edges of a junction. -/
theorem connected_of_junction {onward : List Nat} (hq : A.state? q = some (.junction onward))
    (ht : t ∈ onward) : A.Connected q t :=
  Relation.ReflTransGen.single ⟨_, hq, Or.inl ht⟩

/-- The only edge of a junction. -/
theorem connected_target (hq : A.state? q = some (.junction [t])) : A.Connected q t :=
  connected_of_junction hq (List.mem_singleton.2 rfl)

end Automaton

/-! ## Copies -/

namespace CopyPlan

variable {plan : CopyPlan}

/-- A state of a repetition is its entry, its exit, or a state of a copy. -/
theorem eq_base_or_accept_or_copy (plan : CopyPlan) {q : Nat} (hwidth : 0 < plan.width)
    (hbase : plan.base ≤ q) (hlimit : q < plan.limit) :
    q = plan.base ∨ q = plan.accept ∨
      ∃ k < plan.copies, plan.copyStart k ≤ q ∧ q < plan.copyStart k + plan.width := by
  have hmin : plan.min ≤ plan.copies := Pattern.min_le_copies plan.min plan.max
  rcases Nat.eq_or_lt_of_le hbase with rfl | hbase
  · exact Or.inl rfl
  rcases Nat.lt_trichotomy q plan.accept with hq | rfl | hq
  · -- The copies before the state that accepts follow one another from the entry on.
    right; right
    unfold accept at hq
    have hk : (q - (plan.base + 1)) / plan.width < plan.min := by
      rw [Nat.div_lt_iff_lt_mul hwidth]
      omega
    have hdiv := Nat.div_add_mod' (q - (plan.base + 1)) plan.width
    have hmod := Nat.mod_lt (q - (plan.base + 1)) hwidth
    refine ⟨_, Nat.lt_of_lt_of_le hk hmin, ?_⟩
    unfold copyStart
    rw [if_pos hk]
    omega
  · exact Or.inr (Or.inl rfl)
  · -- The copies behind it lie one state further on.
    right; right
    unfold accept at hq
    unfold limit at hlimit
    have hk : (q - (plan.base + 2)) / plan.width < plan.copies := by
      rw [Nat.div_lt_iff_lt_mul hwidth]
      omega
    have hmin' : plan.min ≤ (q - (plan.base + 2)) / plan.width := by
      rw [Nat.le_div_iff_mul_le hwidth]
      omega
    have hdiv := Nat.div_add_mod' (q - (plan.base + 2)) plan.width
    have hmod := Nat.mod_lt (q - (plan.base + 2)) hwidth
    refine ⟨_, hk, ?_⟩
    unfold copyStart
    rw [if_neg (Nat.not_lt.2 hmin')]
    omega

end CopyPlan

namespace Automaton

variable {A : Automaton π} {plan : CopyPlan}

/-- The way in: through one copy after the other. -/
theorem connected_base_junction
    (hjunction : ∀ k ≤ plan.copies, A.state? (plan.junction k) = some (.junction (plan.onward k)))
    (hcopy : ∀ k < plan.copies, A.Connected (plan.copyStart k) (plan.junction (k + 1)))
    {k : Nat} (hk : k ≤ plan.copies) : A.Connected plan.base (plan.junction k) := by
  induction k with
  | zero => exact .refl A plan.base
  | succ k ih =>
    have henter : A.Connected (plan.junction k) (plan.copyStart k) :=
      connected_of_junction (hjunction k (Nat.le_of_lt hk)) (CopyPlan.copyStart_mem_onward hk)
    exact (ih (Nat.le_of_lt hk)).trans (henter.trans (hcopy k hk))

/-- The way out: to the junction at which there are enough copies, and from there to the
end. -/
theorem connected_junction_accept
    (hjunction : ∀ k ≤ plan.copies, A.state? (plan.junction k) = some (.junction (plan.onward k)))
    (hcopy : ∀ k < plan.copies, A.Connected (plan.copyStart k) (plan.junction (k + 1)))
    {k : Nat} (hk : k ≤ plan.copies) : A.Connected (plan.junction k) plan.accept := by
  have hmin : plan.min ≤ plan.copies := Pattern.min_le_copies plan.min plan.max
  have henough : A.Connected (plan.junction plan.min) plan.accept :=
    connected_of_junction (hjunction plan.min hmin)
      (CopyPlan.accept_mem_onward (Nat.le_refl plan.min) (Or.inr rfl))
  by_cases hfew : k ≤ plan.min
  · -- The induction is on the number of copies that are still to be made.
    obtain ⟨n, hn⟩ := Nat.exists_eq_add_of_le hfew
    induction n generalizing k with
    | zero =>
      rw [Nat.add_zero] at hn
      rw [← hn]
      exact henough
    | succ n ih =>
      have hlt : k < plan.copies := by omega
      have henter : A.Connected (plan.junction k) (plan.copyStart k) :=
        connected_of_junction (hjunction k hk) (CopyPlan.copyStart_mem_onward hlt)
      have hrest := ih hlt (by omega) (by omega)
      exact henter.trans ((hcopy k hlt).trans hrest)
  · by_cases hmax : plan.max = none
    · -- Only the copy of a loop lies behind.
      have hcopies := CopyPlan.copies_of_max_eq_none hmax
      have hlast : k = plan.min + 1 := by omega
      subst hlast
      have hback : A.Connected (plan.junction (plan.min + 1)) (plan.junction plan.min) :=
        connected_of_junction (hjunction _ hk) (CopyPlan.junction_mem_onward hmax)
      exact hback.trans henough
    · exact connected_of_junction (hjunction k hk)
        (CopyPlan.accept_mem_onward (by omega) (Or.inl hmax))

/-! ## Blocks -/

/-- Edges lead from the first number to every number of the range, and from each of them to
the exit. -/
def Spanned (A : Automaton π) (base size exit : Nat) : Prop :=
  ∀ q, base ≤ q → q < base + size → A.Connected base q ∧ A.Connected q exit

/-- A block of an entry and an exit is spanned by the edge between them. -/
theorem spanned_pair {base : Nat} (h : A.Adjacent base (base + 1)) : A.Spanned base 2 (base + 1) := by
  have hthrough : A.Connected base (base + 1) := Relation.ReflTransGen.single h
  intro q hbase hlimit
  have hq : q = base ∨ q = base + 1 := by omega
  rcases hq with rfl | rfl
  · exact ⟨.refl A _, hthrough⟩
  · exact ⟨hthrough, .refl A _⟩

/-- The whole way through a block. -/
theorem Spanned.through {base size exit : Nat} (h : A.Spanned base size exit) (hsize : 0 < size) :
    A.Connected base exit := (h base (Nat.le_refl base) (by omega)).2

mutual
/-- **No state of a block is cut off.** -/
theorem connected_layout : (p : Pattern π) → (base : Nat) → (onward : List Nat) →
    A.Holds base (p.layout base onward) →
    A.Spanned base p.stateCount (base + p.exitOffset)
  | .predicate handle, base, onward, hA =>
    spanned_pair ⟨_, hA.first, Or.inr ⟨_, List.mem_singleton.2 rfl, rfl⟩⟩
  | .any, base, onward, hA =>
    spanned_pair ⟨_, hA.first, Or.inr ⟨_, List.mem_singleton.2 rfl, rfl⟩⟩
  | .anchor condition, base, onward, hA =>
    spanned_pair ⟨_, hA.first, Or.inl (List.mem_singleton.2 rfl)⟩
  | .sequence children, base, onward, hA => connected_layoutSequence children base onward hA
  | .alternation left right, base, onward, hA => by
    obtain ⟨hentry, hleft, hright⟩ := holds_alternation hA
    have hexit : base + (Pattern.alternation left right).exitOffset =
        base + 1 + left.stateCount + right.stateCount := by
      simp only [Pattern.exitOffset]
      omega
    have hspanleft := connected_layout left _ _ hleft
    have hspanright := connected_layout right _ _ hright
    have henterleft : A.Connected base (base + 1) := connected_of_junction hentry (by simp)
    have henterright : A.Connected base (base + 1 + left.stateCount) :=
      connected_of_junction hentry (by simp)
    have hleaveleft := connected_target hleft.exit
    have hleaveright := connected_target hright.exit
    have hpos := left.two_le_stateCount
    have hthrough := henterleft.trans ((hspanleft.through (by omega)).trans hleaveleft)
    rw [hexit]
    intro q hbase hlimit
    simp only [Pattern.stateCount] at hlimit
    -- The state is the entry, on one of the two sides, or the exit.
    rcases Nat.eq_or_lt_of_le hbase with rfl | hbase
    · exact ⟨.refl A _, hthrough⟩
    by_cases hq : q < base + 1 + left.stateCount
    · obtain ⟨hin, hout⟩ := hspanleft q hbase hq
      exact ⟨henterleft.trans hin, hout.trans hleaveleft⟩
    by_cases hq' : q < base + 1 + left.stateCount + right.stateCount
    · obtain ⟨hin, hout⟩ := hspanright q (Nat.not_lt.1 hq) hq'
      exact ⟨henterright.trans hin, hout.trans hleaveright⟩
    · have hlast : q = base + 1 + left.stateCount + right.stateCount := by omega
      rw [hlast]
      exact ⟨hthrough, .refl A _⟩
  | .repetition child min max greedy, base, onward, hA => by
    obtain ⟨-, hcopies, -⟩ := holds_repetition hA
    have haccept : base + (Pattern.repetition child min max greedy).exitOffset =
        (Pattern.copyPlan child base min max greedy).accept := by
      simp only [Pattern.exitOffset, CopyPlan.accept, Pattern.copyPlan]
      omega
    have hpos := child.two_le_stateCount
    have hspan := fun k hk => connected_layout child _ _ (hcopies k hk)
    have hjunction := fun k hk => state?_junction (k := k) hA hk
    have hcopy := fun k hk => (hspan k hk).through (by omega)
    have hthrough := connected_junction_accept hjunction hcopy (Nat.zero_le _)
    rw [haccept]
    intro q hbase hlimit
    rcases CopyPlan.eq_base_or_accept_or_copy (Pattern.copyPlan child base min max greedy)
      (Nat.lt_of_lt_of_le Nat.zero_lt_two hpos) hbase hlimit with rfl | rfl | ⟨k, hk, hstart, hend⟩
    · exact ⟨.refl A _, hthrough⟩
    · exact ⟨hthrough, .refl A _⟩
    · -- Through the copies before this one, and out from the junction behind it.
      obtain ⟨hin, hout⟩ := hspan k hk q hstart hend
      have henter : A.Connected ((Pattern.copyPlan child base min max greedy).junction k)
          ((Pattern.copyPlan child base min max greedy).copyStart k) :=
        connected_of_junction (hjunction k (Nat.le_of_lt hk)) (CopyPlan.copyStart_mem_onward hk)
      have hbefore := connected_base_junction hjunction hcopy (Nat.le_of_lt hk)
      have hafter := connected_junction_accept hjunction hcopy (show k + 1 ≤ _ from hk)
      exact ⟨hbefore.trans (henter.trans hin), hout.trans hafter⟩

theorem connected_layoutSequence : (ps : List (Pattern π)) → (base : Nat) →
    (onward : List Nat) → A.Holds base (Pattern.layoutSequence ps base onward) →
    A.Spanned base (Pattern.sequenceCount ps) (base + Pattern.sequenceExit ps)
  | [], base, onward, hA => spanned_pair ⟨_, hA.first, Or.inl (List.mem_singleton.2 rfl)⟩
  | [child], base, onward, hA => connected_layout child base onward hA
  | child :: next :: rest, base, onward, hA => by
    obtain ⟨hfirst, hothers⟩ := holds_sequence hA
    have hexit : base + Pattern.sequenceExit (child :: next :: rest) =
        base + child.stateCount + Pattern.sequenceExit (next :: rest) := by
      simp only [Pattern.sequenceExit]
      omega
    have hspan := connected_layout child _ _ hfirst
    have hspan' := connected_layoutSequence (next :: rest) _ _ hothers
    have hpos := child.two_le_stateCount
    have hpos' := Pattern.sequenceExit_lt (next :: rest)
    have hnext := connected_target hfirst.exit
    have hthrough := (hspan.through (by omega)).trans hnext
    have hthrough' := hspan'.through (by omega)
    rw [hexit]
    intro q hbase hlimit
    simp only [Pattern.sequenceCount] at hlimit
    by_cases hq : q < base + child.stateCount
    · obtain ⟨hin, hout⟩ := hspan q hbase hq
      exact ⟨hin, hout.trans (hnext.trans hthrough')⟩
    · obtain ⟨hin, hout⟩ := hspan' q (Nat.not_lt.1 hq) (by omega)
      exact ⟨hthrough.trans hin, hout⟩
end

/-! ## A whole automaton -/

/-- What can be relied on in the automaton of a pattern. -/
structure WellFormed (A : Automaton π) : Prop where
  /-- The start is a state, and every edge leads to a state. -/
  linked : A.Linked
  accept_lt : A.accept < A.size
  /-- The accepting state leads nowhere and can be entered anywhere. -/
  accept_final : ∀ state, A.state? A.accept = some state →
    state.silent = [] ∧ state.reading = [] ∧ state.anchor = none
  /-- A state reads one element and does nothing else, or it leads on to at most two states. -/
  reads_or_leads : ∀ q state, A.state? q = some state →
    (state.reading.length = 1 ∧ state.silent = [] ∧ state.anchor = none) ∨
      (state.reading = [] ∧ state.silent.length ≤ 2)
  /-- Behind an anchor there is one way to go on. -/
  anchored : ∀ q state, A.state? q = some state → state.anchor ≠ none → state.silent.length = 1
  /-- No state is laid out in vain. -/
  from_start : ∀ q < A.size, A.Connected A.start q
  to_accept : ∀ q < A.size, A.Connected q A.accept

/-- Only regular states are laid out, because the exit of the whole leads nowhere. -/
theorem regular_of_state? {p : Pattern π} {q : Nat} {state : State π}
    (h : (ofPattern p).state? q = some state) : state.Regular := by
  rw [state?, ofPattern, List.getElem?_toArray] at h
  exact p.regular_layout 0 [] (Nat.zero_le 2) state (List.mem_of_getElem? h)

/-- **The automaton of every pattern is well-formed**, however empty sequences, repetitions
of no copies, loops and alternations are nested in it. -/
theorem wellFormed_ofPattern (p : Pattern π) : (ofPattern p).WellFormed := by
  have hA := holds_ofPattern p
  have hspan : (ofPattern p).Spanned 0 p.stateCount (0 + p.exitOffset) :=
    connected_layout p 0 [] hA
  rw [Nat.zero_add] at hspan
  have hsize : (ofPattern p).size = p.stateCount := size_ofPattern p
  refine ⟨linked_ofPattern p, ?_, ?_, ?_, ?_, ?_, ?_⟩
  · rw [hsize]
    exact p.exitOffset_lt
  · intro state hstate
    have hexit := hA.exit
    rw [Nat.zero_add] at hexit
    have hsame : some (.junction []) = some state := hexit.symm.trans hstate
    cases hsame
    exact ⟨rfl, rfl, rfl⟩
  · intro q state hstate
    cases regular_of_state? hstate with
    | reader label target => exact Or.inl ⟨rfl, rfl, rfl⟩
    | gate condition target => exact Or.inr ⟨rfl, by simp [State.gate]⟩
    | junction hlength => exact Or.inr ⟨rfl, hlength⟩
  · intro q state hstate hanchor
    cases regular_of_state? hstate with
    | reader label target => exact absurd rfl hanchor
    | gate condition target => rfl
    | junction hlength => exact absurd rfl hanchor
  · intro q hq
    exact (hspan q (Nat.zero_le q) (by omega)).1
  · intro q hq
    exact (hspan q (Nat.zero_le q) (by omega)).2

end Automaton

end Motif
