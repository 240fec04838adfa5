/-
Blocks inside of automata.

The layout of a pattern is a list of states that may stand anywhere in an automaton
(`Automaton.Holds`). Whoever holds the block of a composite pattern holds the blocks
of its children, each behind the one before it. For a sequence and an alternation
that is a matter of cutting a list; for a repetition it gives one block for each
copy and one junction between any two of them (`holds_repetition`).

A block leads nowhere but into itself and to where its exit leads
(`confined_layout`). An automaton that is one block with an exit that leads nowhere
is therefore linked (`linked_ofPattern`).
-/
import Motif.Automaton.Layout
import Motif.Proofs.Closure

set_option autoImplicit false

namespace Motif

variable {π : Type}

/-! ## Numbers of a repetition's states -/

theorem Pattern.min_le_copies (min : Nat) (max : Option Nat) : min ≤ Pattern.copies min max := by
  have := Pattern.copies_sub_add min max
  omega

namespace CopyPlan

variable {plan : CopyPlan}

def copies (plan : CopyPlan) : Nat := Pattern.copies plan.min plan.max

/-- The first number behind all states of the repetition. -/
def limit (plan : CopyPlan) : Nat := plan.base + (2 + plan.copies * plan.width)

theorem copyStart_add_width_le {k : Nat} (hk : k < plan.copies) :
    plan.copyStart k + plan.width ≤ plan.limit := by
  have hmul : (k + 1) * plan.width ≤ plan.copies * plan.width := Nat.mul_le_mul_right _ hk
  rw [Nat.add_mul, Nat.one_mul] at hmul
  unfold copyStart limit
  split <;> omega

theorem base_lt_copyStart (plan : CopyPlan) (k : Nat) : plan.base < plan.copyStart k := by
  unfold copyStart
  omega

theorem accept_lt (plan : CopyPlan) : plan.accept < plan.limit := by
  have hmul : plan.min * plan.width ≤ plan.copies * plan.width :=
    Nat.mul_le_mul_right _ (Pattern.min_le_copies plan.min plan.max)
  unfold accept limit
  omega

theorem base_lt_accept (plan : CopyPlan) : plan.base < plan.accept := by
  unfold accept
  omega

theorem junction_zero : plan.junction 0 = plan.base := rfl

theorem junction_succ (k : Nat) : plan.junction (k + 1) = plan.copyStart k + plan.exit := rfl

/-- A junction lies between the entry of the repetition and its last state. -/
theorem junction_bounds {k : Nat} (hexit : plan.exit < plan.width) (hk : k ≤ plan.copies) :
    plan.base ≤ plan.junction k ∧ plan.junction k < plan.limit := by
  cases k with
  | zero =>
    rw [junction_zero, limit]
    omega
  | succ k =>
    have hlimit := copyStart_add_width_le (show k < plan.copies from hk)
    have hbase := base_lt_copyStart plan k
    rw [junction_succ]
    omega

theorem copies_of_max_eq_some {most : Nat} (h : plan.max = some most) :
    plan.copies = Max.max plan.min most := by
  rw [copies, h]
  rfl

theorem copies_of_max_eq_none (h : plan.max = none) : plan.copies = plan.min + 1 := by
  simp only [copies, h, Pattern.copies]

theorem mem_choice {k t : Nat} : t ∈ plan.choice k ↔ t = plan.copyStart k ∨ t = plan.accept := by
  unfold choice
  split <;> simp [or_comm]

/-- What an edge of a junction can do: enter the next copy, end the repetition when
enough copies were made, or go round a loop. -/
theorem mem_onward {k t : Nat} (hk : k ≤ plan.copies) (ht : t ∈ plan.onward k) :
    (t = plan.copyStart k ∧ k < plan.copies) ∨
      (t = plan.accept ∧ plan.min ≤ k ∧ (plan.max ≠ none ∨ k = plan.min)) ∨
      (t = plan.junction plan.min ∧ plan.max = none ∧ k = plan.min + 1) := by
  unfold onward at ht
  split at ht
  · -- There are not enough copies yet.
    have hmin : plan.min ≤ plan.copies := Pattern.min_le_copies plan.min plan.max
    exact Or.inl ⟨List.mem_singleton.1 ht, by omega⟩
  · rename_i hmin
    split at ht
    · -- There may be a bounded number of copies.
      rename_i most hmax
      have hsome : plan.max ≠ none := by
        rw [hmax]
        exact Option.some_ne_none most
      split at ht
      · rename_i hlt
        have hcopies := copies_of_max_eq_some hmax
        rcases mem_choice.1 ht with rfl | rfl
        · exact Or.inl ⟨rfl, by omega⟩
        · exact Or.inr (Or.inl ⟨rfl, by omega, Or.inl hsome⟩)
      · exact Or.inr (Or.inl ⟨List.mem_singleton.1 ht, by omega, Or.inl hsome⟩)
    · -- The copy behind the ones that have to be there is a loop.
      rename_i hmax
      have hcopies := copies_of_max_eq_none hmax
      split at ht
      · rename_i hsame
        rcases mem_choice.1 ht with rfl | rfl
        · exact Or.inl ⟨rfl, by omega⟩
        · exact Or.inr (Or.inl ⟨rfl, by omega, Or.inr hsame⟩)
      · exact Or.inr (Or.inr ⟨List.mem_singleton.1 ht, hmax, by omega⟩)

/-- Every junction leads somewhere. -/
theorem onward_ne_nil (plan : CopyPlan) (k : Nat) : plan.onward k ≠ [] := by
  have hchoice : plan.choice k ≠ [] := List.ne_nil_of_mem (mem_choice.2 (Or.inl rfl))
  unfold onward
  split
  · exact List.cons_ne_nil _ _
  · split
    · split
      · exact hchoice
      · exact List.cons_ne_nil _ _
    · split
      · exact hchoice
      · exact List.cons_ne_nil _ _

/-- While there are copies left, one more can be made. -/
theorem copyStart_mem_onward {k : Nat} (hk : k < plan.copies) :
    plan.copyStart k ∈ plan.onward k := by
  unfold onward
  split
  · exact List.mem_singleton.2 rfl
  · rename_i hmin
    split
    · rename_i most hmax
      rw [copies_of_max_eq_some hmax] at hk
      rw [if_pos (by omega)]
      exact mem_choice.2 (Or.inl rfl)
    · rename_i hmax
      rw [copies_of_max_eq_none hmax] at hk
      rw [if_pos (by omega)]
      exact mem_choice.2 (Or.inl rfl)

/-- Once enough copies were made, the repetition can end. -/
theorem accept_mem_onward {k : Nat} (hmin : plan.min ≤ k) (h : plan.max ≠ none ∨ k = plan.min) :
    plan.accept ∈ plan.onward k := by
  unfold onward
  rw [if_neg (by omega)]
  split
  · split
    · exact mem_choice.2 (Or.inr rfl)
    · exact List.mem_singleton.2 rfl
  · rename_i hmax
    rw [if_pos (h.resolve_left fun hne => hne hmax)]
    exact mem_choice.2 (Or.inr rfl)

/-- The last copy of a loop leads back to where the loop was entered. -/
theorem junction_mem_onward (hmax : plan.max = none) :
    plan.junction plan.min ∈ plan.onward (plan.min + 1) := by
  unfold onward
  rw [if_neg (by omega), hmax]
  dsimp only
  rw [if_neg (by omega)]
  exact List.mem_singleton.2 rfl

/-- The edges of a junction lead to states of the repetition. -/
theorem onward_bounds {k : Nat} (hexit : plan.exit < plan.width) (hk : k ≤ plan.copies) :
    ∀ t ∈ plan.onward k, plan.base ≤ t ∧ t < plan.limit := by
  intro t ht
  rcases mem_onward hk ht with ⟨rfl, hlt⟩ | ⟨rfl, -⟩ | ⟨rfl, -, hlast⟩
  · have hlimit := copyStart_add_width_le hlt
    have hbase := base_lt_copyStart plan k
    omega
  · exact ⟨Nat.le_of_lt (base_lt_accept plan), accept_lt plan⟩
  · exact junction_bounds hexit (by omega)

end CopyPlan

/-! ## The exit of a block -/

namespace Pattern

mutual
theorem exitOffset_lt : (p : Pattern π) → p.exitOffset < p.stateCount
  | predicate _ => by simp [exitOffset, stateCount]
  | any => by simp [exitOffset, stateCount]
  | anchor _ => by simp [exitOffset, stateCount]
  | sequence children => by
    simpa only [exitOffset, stateCount] using sequenceExit_lt children
  | alternation left right => by
    simp only [exitOffset, stateCount]
    omega
  | repetition child min max greedy => by
    have hmul : min * child.stateCount ≤ copies min max * child.stateCount :=
      Nat.mul_le_mul_right _ (min_le_copies min max)
    simp only [exitOffset, stateCount]
    omega

theorem sequenceExit_lt : (ps : List (Pattern π)) → sequenceExit ps < sequenceCount ps
  | [] => by simp [sequenceExit, sequenceCount]
  | [child] => by simpa only [sequenceExit, sequenceCount] using exitOffset_lt child
  | child :: next :: rest => by
    have := sequenceExit_lt (next :: rest)
    simp only [sequenceExit, sequenceCount]
    omega
end

/-- The first copies of a repetition are as long as they have to be. -/
theorem length_firstCopies (child : Pattern π) (plan : CopyPlan) (min : Nat) :
    ((List.range min).flatMap fun k =>
      layout child (plan.copyStart k) (plan.onward (k + 1))).length = min * child.stateCount := by
  rw [length_flatMap_const child.stateCount _ _ fun k _ => length_layout child _ _,
    List.length_range]

mutual
/-- The exit of a block leads to where the block was told to lead, and that is all
it does. -/
theorem getElem?_layout_exitOffset : (p : Pattern π) → (base : Nat) → (onward : List Nat) →
    (layout p base onward)[p.exitOffset]? = some (.junction onward)
  | predicate _, _, _ => rfl
  | any, _, _ => rfl
  | anchor _, _, _ => rfl
  | sequence children, base, onward => by
    simpa only [layout, exitOffset] using getElem?_layoutSequence_exit children base onward
  | alternation left right, base, onward => by
    simp only [layout, exitOffset]
    rw [List.getElem?_append_right (by
      simp only [List.length_append, List.length_cons, length_layout]
      omega)]
    have hlast : 1 + left.stateCount + right.stateCount -
        (.junction [base + 1, base + 1 + left.stateCount] ::
            layout left (base + 1) [base + 1 + left.stateCount + right.stateCount] ++
          layout right (base + 1 + left.stateCount)
            [base + 1 + left.stateCount + right.stateCount]).length = 0 := by
      simp only [List.length_append, List.length_cons, length_layout]
      omega
    rw [hlast]
    rfl
  | repetition child min max greedy, base, onward => by
    simp only [layout, exitOffset]
    rw [List.getElem?_append_right (by rw [List.length_cons, length_firstCopies]; omega),
      List.length_cons, length_firstCopies, Nat.add_comm 1, Nat.sub_self]
    rfl

theorem getElem?_layoutSequence_exit : (ps : List (Pattern π)) → (base : Nat) →
    (onward : List Nat) →
    (layoutSequence ps base onward)[sequenceExit ps]? = some (.junction onward)
  | [], _, _ => rfl
  | [child], base, onward => by
    simpa only [layoutSequence, sequenceExit] using getElem?_layout_exitOffset child base onward
  | child :: next :: rest, base, onward => by
    have := getElem?_layoutSequence_exit (next :: rest) (base + child.stateCount) onward
    simp only [layoutSequence, sequenceExit]
    rw [List.getElem?_append_right (by rw [length_layout]; omega), length_layout,
      Nat.add_sub_cancel_left]
    exact this
end

/-! ## The entry of a block -/

mutual
/-- A block does not begin with a state that leads nowhere. -/
theorem getElem?_layout_zero_ne : (p : Pattern π) → (base : Nat) → (onward : List Nat) →
    (layout p base onward)[0]? ≠ some (.junction [])
  | predicate _, _, _ => by simp [layout, State.reader, State.junction]
  | any, _, _ => by simp [layout, State.reader, State.junction]
  | anchor _, _, _ => by simp [layout, State.gate, State.junction]
  | sequence children, base, onward => by
    simpa only [layout] using getElem?_layoutSequence_zero_ne children base onward
  | alternation _ _, _, _ => by simp [layout, State.junction]
  | repetition child min max greedy, base, onward => by
    simpa [layout, State.junction] using (copyPlan child base min max greedy).onward_ne_nil 0

theorem getElem?_layoutSequence_zero_ne : (ps : List (Pattern π)) → (base : Nat) →
    (onward : List Nat) → (layoutSequence ps base onward)[0]? ≠ some (.junction [])
  | [], _, _ => by simp [layoutSequence, State.junction]
  | [child], base, onward => by
    simpa only [layoutSequence] using getElem?_layout_zero_ne child base onward
  | child :: next :: rest, base, onward => by
    have hpos : 0 < (layout child base [base + child.stateCount]).length := by
      rw [length_layout]
      exact Nat.zero_lt_of_lt (exitOffset_lt child)
    rw [layoutSequence, List.getElem?_append_left hpos]
    exact getElem?_layout_zero_ne child base _
end

end Pattern

/-! ## Blocks that an automaton holds -/

namespace Automaton

variable {A : Automaton π}

/-- The states of the block have the numbers from `base` on. -/
def Holds (A : Automaton π) (base : Nat) (block : List (State π)) : Prop :=
  ∀ k state, block[k]? = some state → A.state? (base + k) = some state

theorem Holds.first {base : Nat} {state : State π} {block : List (State π)}
    (h : A.Holds base (state :: block)) : A.state? base = some state := h 0 state rfl

theorem Holds.left {base : Nat} {block block' : List (State π)}
    (h : A.Holds base (block ++ block')) : A.Holds base block := by
  intro k state hk
  have hlt : k < block.length := by
    rw [List.getElem?_eq_some_iff] at hk
    exact hk.1
  exact h k state (by rw [List.getElem?_append_left hlt, hk])

theorem Holds.right {base : Nat} {block block' : List (State π)}
    (h : A.Holds base (block ++ block')) : A.Holds (base + block.length) block' := by
  intro k state hk
  rw [Nat.add_assoc]
  refine h _ state ?_
  rw [List.getElem?_append_right (Nat.le_add_right _ _), Nat.add_sub_cancel_left, hk]

theorem Holds.tail {base : Nat} {state : State π} {block : List (State π)}
    (h : A.Holds base (state :: block)) : A.Holds (base + 1) block := by
  intro k st hk
  rw [Nat.add_assoc, Nat.add_comm 1]
  exact h (k + 1) st hk

/-- Of blocks of one width, each begins a width behind the one before it. -/
theorem Holds.copy {base width first count : Nat} {block : Nat → List (State π)}
    (h : A.Holds base ((List.range' first count).flatMap block))
    (hwidth : ∀ k, (block k).length = width) {k : Nat} (hk : k < count) :
    A.Holds (base + k * width) (block (first + k)) := by
  induction count generalizing base first k with
  | zero => cases hk
  | succ count ih =>
    rw [List.range'_succ, List.flatMap_cons] at h
    cases k with
    | zero =>
      rw [Nat.zero_mul, Nat.add_zero, Nat.add_zero]
      exact h.left
    | succ k =>
      -- Without the first block, block `k + 1` is block `k`.
      have hrest := ih h.right (Nat.lt_of_succ_lt_succ hk)
      rw [hwidth, Nat.add_assoc, Nat.add_assoc, Nat.add_comm 1, Nat.add_comm width,
        ← Nat.succ_mul] at hrest
      exact hrest

/-! ## The blocks of the children -/

section Children

open Pattern

variable {base : Nat} {onward : List Nat}

theorem Holds.exit {p : Pattern π} (h : A.Holds base (p.layout base onward)) :
    A.state? (base + p.exitOffset) = some (.junction onward) :=
  h _ _ (getElem?_layout_exitOffset p base onward)

theorem Holds.entry_ne {p : Pattern π} (h : A.Holds base (p.layout base onward)) :
    A.state? base ≠ some (.junction []) := by
  have hpos : 0 < (p.layout base onward).length := by
    rw [length_layout]
    exact Nat.zero_lt_of_lt (exitOffset_lt p)
  have hfirst := List.getElem?_eq_getElem hpos
  have hentry : A.state? base = (p.layout base onward)[0]? := (h 0 _ hfirst).trans hfirst.symm
  rw [hentry]
  exact getElem?_layout_zero_ne p base onward

/-- The first child of a sequence leads to the others, which stand right behind it. -/
theorem holds_sequence {child next : Pattern π} {rest : List (Pattern π)}
    (h : A.Holds base (layoutSequence (child :: next :: rest) base onward)) :
    A.Holds base (child.layout base [base + child.stateCount]) ∧
      A.Holds (base + child.stateCount)
        (layoutSequence (next :: rest) (base + child.stateCount) onward) := by
  rw [layoutSequence] at h
  refine ⟨h.left, ?_⟩
  have hright := h.right
  rw [length_layout] at hright
  exact hright

/-- The entry of an alternation leads to both sides, and both lead to its exit. -/
theorem holds_alternation {left right : Pattern π}
    (h : A.Holds base ((alternation left right).layout base onward)) :
    A.state? base = some (.junction [base + 1, base + 1 + left.stateCount]) ∧
      A.Holds (base + 1)
        (left.layout (base + 1) [base + 1 + left.stateCount + right.stateCount]) ∧
      A.Holds (base + 1 + left.stateCount)
        (right.layout (base + 1 + left.stateCount)
          [base + 1 + left.stateCount + right.stateCount]) := by
  rw [layout] at h
  have hfirst := h.left.left
  refine ⟨hfirst.first, hfirst.tail, ?_⟩
  have hright := h.left.right
  rw [List.length_cons, length_layout, Nat.add_comm _ 1, ← Nat.add_assoc] at hright
  exact hright

/-- A repetition has a junction in front, a block for each copy, and a state that
accepts. -/
theorem holds_repetition {child : Pattern π} {min : Nat} {max : Option Nat} {greedy : Bool}
    (h : A.Holds base ((repetition child min max greedy).layout base onward)) :
    let plan := copyPlan child base min max greedy
    A.state? base = some (.junction (plan.onward 0)) ∧
      (∀ k < plan.copies,
        A.Holds (plan.copyStart k) (child.layout (plan.copyStart k) (plan.onward (k + 1)))) ∧
      A.state? plan.accept = some (.junction onward) := by
  intro plan
  rw [layout] at h
  have hright := h.right
  rw [List.length_cons, length_firstCopies] at hright
  have hwidth : ∀ k, (child.layout (plan.copyStart k) (plan.onward (k + 1))).length =
      child.stateCount := fun k => length_layout child _ _
  refine ⟨h.left.first, ?_, ?_⟩
  · intro k hk
    by_cases hmin : k < min
    · -- The copy lies before the state that accepts.
      have hfirst := h.left.tail
      rw [List.range_eq_range'] at hfirst
      have hcopy := hfirst.copy hwidth hmin
      have hstart : base + 1 + k * child.stateCount = plan.copyStart k := by
        simp [CopyPlan.copyStart, plan, copyPlan, hmin]
      rw [hstart, Nat.zero_add] at hcopy
      exact hcopy
    · -- The copy lies behind it, and one state further on for that.
      have hsub : k - min < copies min max - min := by
        have hcopies : k < copies min max := hk
        omega
      have hcopy := hright.tail.copy hwidth hsub
      have hstart : base + (min * child.stateCount + 1) + 1 + (k - min) * child.stateCount =
          plan.copyStart k := by
        have hmul : min * child.stateCount + (k - min) * child.stateCount =
            k * child.stateCount := by
          rw [← Nat.add_mul, Nat.add_sub_cancel' (Nat.not_lt.1 hmin)]
        simp only [CopyPlan.copyStart, plan, copyPlan, if_neg hmin]
        omega
      rw [hstart, Nat.add_sub_cancel' (Nat.not_lt.1 hmin)] at hcopy
      exact hcopy
  · have haccept : base + (min * child.stateCount + 1) = plan.accept := by
      simp only [CopyPlan.accept, plan, copyPlan]
      omega
    rw [haccept] at hright
    exact hright.first

/-- Between two copies of a repetition, and before the first one, there is a
junction. -/
theorem state?_junction {child : Pattern π} {min : Nat} {max : Option Nat} {greedy : Bool}
    (h : A.Holds base ((repetition child min max greedy).layout base onward)) {k : Nat}
    (hk : k ≤ (copyPlan child base min max greedy).copies) :
    A.state? ((copyPlan child base min max greedy).junction k) =
      some (.junction ((copyPlan child base min max greedy).onward k)) := by
  obtain ⟨hbase, hcopy, -⟩ := holds_repetition h
  cases k with
  | zero => exact hbase
  | succ k => exact (hcopy k hk).exit

end Children

end Automaton

/-! ## Where a block leads -/

/-- The edges of the state lead into a range of numbers or, if they are silent, to
where a block leads. -/
def State.Confined (low high : Nat) (onward : List Nat) (state : State π) : Prop :=
  (∀ t ∈ state.silent, t ∈ onward ∨ (low ≤ t ∧ t < high)) ∧
    ∀ edge ∈ state.reading, low ≤ edge.2 ∧ edge.2 < high

theorem State.Confined.mono {low high low' high' : Nat} {onward onward' : List Nat}
    {state : State π} (h : state.Confined low high onward) (hlow : low' ≤ low)
    (hhigh : high ≤ high') (honward : ∀ t ∈ onward, t ∈ onward' ∨ (low' ≤ t ∧ t < high')) :
    state.Confined low' high' onward' := by
  constructor
  · intro t ht
    rcases h.1 t ht with ht | ht
    · exact honward t ht
    · exact Or.inr ⟨by omega, by omega⟩
  · intro edge hedge
    have := h.2 edge hedge
    omega

theorem State.confined_junction {low high : Nat} {onward targets : List Nat}
    (h : ∀ t ∈ targets, t ∈ onward ∨ (low ≤ t ∧ t < high)) :
    (State.junction targets : State π).Confined low high onward := by
  refine ⟨h, ?_⟩
  intro edge hedge
  cases hedge

/-- A block of two states is confined if its entry is. -/
theorem State.confined_pair {base : Nat} {onward : List Nat} {entry : State π}
    (h : entry.Confined base (base + 2) onward) :
    ∀ state ∈ [entry, .junction onward], state.Confined base (base + 2) onward := by
  intro state hstate
  rcases List.mem_cons.1 hstate with rfl | hstate
  · exact h
  · rw [List.mem_singleton.1 hstate]
    exact State.confined_junction fun t ht => Or.inl ht

namespace Pattern

/-- A state of a repetition is its entry, the state that accepts, or a state of one of the
copies. -/
theorem mem_layout_repetition {child : Pattern π} {min : Nat} {max : Option Nat} {greedy : Bool}
    {base : Nat} {onward : List Nat} {state : State π}
    (h : state ∈ layout (repetition child min max greedy) base onward) :
    state = .junction ((copyPlan child base min max greedy).onward 0) ∨
      state = .junction onward ∨
      ∃ k < (copyPlan child base min max greedy).copies,
        state ∈ layout child ((copyPlan child base min max greedy).copyStart k)
          ((copyPlan child base min max greedy).onward (k + 1)) := by
  have hmin : min ≤ copies min max := min_le_copies min max
  simp only [layout, List.mem_append, List.mem_cons, List.mem_flatMap, List.mem_range,
    List.mem_range'_1] at h
  rcases h with (hentry | ⟨k, hk, hcopy⟩) | hexit | ⟨k, hk, hcopy⟩
  · exact Or.inl hentry
  · exact Or.inr (Or.inr ⟨k, Nat.lt_of_lt_of_le hk hmin, hcopy⟩)
  · exact Or.inr (Or.inl hexit)
  · refine Or.inr (Or.inr ⟨k, ?_, hcopy⟩)
    change k < copies min max
    omega

mutual
/-- A block leads into itself and to where its exit leads. -/
theorem confined_layout : (p : Pattern π) → (base : Nat) → (onward : List Nat) →
    ∀ state ∈ layout p base onward, state.Confined base (base + p.stateCount) onward
  | predicate handle, base, onward =>
    State.confined_pair (by simp [State.Confined, State.reader])
  | any, base, onward => State.confined_pair (by simp [State.Confined, State.reader])
  | anchor condition, base, onward => State.confined_pair (by simp [State.Confined, State.gate])
  | sequence children, base, onward => by
    simpa only [layout, stateCount] using confined_layoutSequence children base onward
  | alternation left right, base, onward => by
    intro state hstate
    simp only [layout, List.mem_append, List.mem_cons, List.not_mem_nil, or_false] at hstate
    simp only [stateCount]
    rcases hstate with ((rfl | hstate) | hstate) | rfl
    -- The entry, the two sides and the exit.
    · refine State.confined_junction fun t ht => Or.inr ?_
      have := two_le_stateCount right
      simp only [List.mem_cons, List.not_mem_nil, or_false] at ht
      omega
    · refine (confined_layout left _ _ state hstate).mono (by omega) (by omega) fun t ht => ?_
      rw [List.mem_singleton.1 ht]
      exact Or.inr ⟨by omega, by omega⟩
    · refine (confined_layout right _ _ state hstate).mono (by omega) (by omega) fun t ht => ?_
      rw [List.mem_singleton.1 ht]
      exact Or.inr ⟨by omega, by omega⟩
    · exact State.confined_junction fun t ht => Or.inl ht
  | repetition child min max greedy, base, onward => by
    have hexit : (copyPlan child base min max greedy).exit <
        (copyPlan child base min max greedy).width := exitOffset_lt child
    intro state hstate
    rcases mem_layout_repetition hstate with rfl | rfl | ⟨k, hk, hstate⟩
    · exact State.confined_junction fun t ht =>
        Or.inr (CopyPlan.onward_bounds hexit (Nat.zero_le _) t ht)
    · exact State.confined_junction fun t ht => Or.inl ht
    · have hbase := CopyPlan.base_lt_copyStart (copyPlan child base min max greedy) k
      refine (confined_layout child _ _ state hstate).mono (Nat.le_of_lt hbase)
        (CopyPlan.copyStart_add_width_le hk) fun t ht => Or.inr ?_
      exact CopyPlan.onward_bounds hexit hk t ht

theorem confined_layoutSequence : (ps : List (Pattern π)) → (base : Nat) → (onward : List Nat) →
    ∀ state ∈ layoutSequence ps base onward, state.Confined base (base + sequenceCount ps) onward
  | [], base, onward => State.confined_pair (State.confined_junction (by simp))
  | [child], base, onward => by
    simpa only [layoutSequence, sequenceCount] using confined_layout child base onward
  | child :: next :: rest, base, onward => by
    intro state hstate
    simp only [layoutSequence, List.mem_append] at hstate
    simp only [sequenceCount]
    rcases hstate with hstate | hstate
    · refine (confined_layout child _ _ state hstate).mono (by omega) (by omega) fun t ht => ?_
      have := sequenceExit_lt (next :: rest)
      rw [List.mem_singleton.1 ht]
      exact Or.inr ⟨by omega, by omega⟩
    · exact (confined_layoutSequence (next :: rest) _ _ state hstate).mono (by omega) (by omega)
        fun t ht => Or.inl ht
end

end Pattern

namespace Automaton

theorem holds_ofPattern (p : Pattern π) : (ofPattern p).Holds 0 (p.layout 0 []) := by
  intro k state hk
  rw [Nat.zero_add, state?, ofPattern, List.getElem?_toArray]
  exact hk

/-- The automaton of a pattern is linked. -/
theorem linked_ofPattern (p : Pattern π) : (ofPattern p).Linked := by
  have hconfined : ∀ q state, (ofPattern p).state? q = some state →
      state.Confined 0 (ofPattern p).size [] := by
    intro q state hq
    rw [state?, ofPattern, List.getElem?_toArray] at hq
    have := Pattern.confined_layout p 0 [] state (List.mem_of_getElem? hq)
    rwa [Nat.zero_add, ← size_ofPattern] at this
  refine ⟨?_, ?_, ?_⟩
  · rw [size_ofPattern]
    exact Nat.lt_of_lt_of_le Nat.zero_lt_two p.two_le_stateCount
  · intro q state hq t ht
    rcases (hconfined q state hq).1 t ht with ht | ht
    · cases ht
    · exact ht.2
  · intro q state hq edge hedge
    exact ((hconfined q state hq).2 edge hedge).2

end Automaton

end Motif
