/-
The automata of patterns that differ in preference alone.

Where two patterns differ in the order of branches and in greedy flags alone, each part of
one of them has its counterpart in the other, and so has each block in their automata
(`Twins`). Every state of an automaton is the entry or the exit of a block, so the blocks
say which states correspond: the entries of two blocks do, and their exits do
(`Counterpart`).

That is a bisimulation (`bisimulation_ofPattern`). What an entry leads to is seen from the
pattern of its block. What an exit leads to is not: it was told by the part around it, and
so it is an induction on how the blocks were come to.
-/
import Motif.Proofs.Blocks
import Motif.Proofs.Bisimulation
import Motif.Proofs.Reordering

set_option autoImplicit false

namespace Motif

variable {π : Type}

open Pattern Automaton

/-- The branches of an alternation that begins at `base`, each with the first number of
its block. -/
def Pattern.branches (left right : Pattern π) (base : Nat) : List (Pattern π × Nat) :=
  [(left, base + 1), (right, base + 1 + left.stateCount)]

/-- Where the branches of an alternation lead. -/
def Pattern.join (left right : Pattern π) (base : Nat) : Nat :=
  base + 1 + left.stateCount + right.stateCount

/-- In the automata of `P` and `Q` there are blocks of `p` and `q` in the same place. The
first numbers of the blocks follow, and where the exits of the blocks lead. -/
inductive Twins (P Q : Pattern π) : (p q : Pattern π) → (base base' : Nat) →
    (onward onward' : List Nat) → Prop where
  | whole (h : P.Reordered Q) : Twins P Q P Q 0 0 [] []
  /-- The only child of a sequence takes all of its block. -/
  | only {p q : Pattern π} {base base' : Nat} {onward onward' : List Nat}
    (h : Twins P Q (.sequence [p]) (.sequence [q]) base base' onward onward') :
    Twins P Q p q base base' onward onward'
  /-- The first child of a sequence leads to the second one. -/
  | first {p p₂ q q₂ : Pattern π} {ps qs : List (Pattern π)} {base base' : Nat}
    {onward onward' : List Nat}
    (h : Twins P Q (.sequence (p :: p₂ :: ps)) (.sequence (q :: q₂ :: qs)) base base'
      onward onward') :
    Twins P Q p q base base' [base + p.stateCount] [base' + q.stateCount]
  /-- The other children of a sequence are a sequence behind the first child. -/
  | rest {p p₂ q q₂ : Pattern π} {ps qs : List (Pattern π)} {base base' : Nat}
    {onward onward' : List Nat}
    (h : Twins P Q (.sequence (p :: p₂ :: ps)) (.sequence (q :: q₂ :: qs)) base base'
      onward onward') :
    Twins P Q (.sequence (p₂ :: ps)) (.sequence (q₂ :: qs)) (base + p.stateCount)
      (base' + q.stateCount) onward onward'
  /-- A branch may be the other branch in the other pattern. -/
  | branch {l r l' r' p q : Pattern π} {base base' b b' : Nat} {onward onward' : List Nat}
    (h : Twins P Q (.alternation l r) (.alternation l' r') base base' onward onward')
    (hp : (p, b) ∈ branches l r base) (hq : (q, b') ∈ branches l' r' base')
    (hpq : p.Reordered q) : Twins P Q p q b b' [join l r base] [join l' r' base']
  | copy {p q : Pattern π} {min : Nat} {max : Option Nat} {greedy greedy' : Bool}
    {base base' k : Nat} {onward onward' : List Nat}
    (h : Twins P Q (.repetition p min max greedy) (.repetition q min max greedy') base base'
      onward onward') (hk : k < copies min max) :
    Twins P Q p q ((copyPlan p base min max greedy).copyStart k)
      ((copyPlan q base' min max greedy').copyStart k)
      ((copyPlan p base min max greedy).onward (k + 1))
      ((copyPlan q base' min max greedy').onward (k + 1))

/-- The states are the entries or the exits of blocks in the same place. -/
inductive Counterpart (P Q : Pattern π) : Nat → Nat → Prop where
  | entry {p q : Pattern π} {base base' : Nat} {onward onward' : List Nat}
    (h : Twins P Q p q base base' onward onward') : Counterpart P Q base base'
  | exit {p q : Pattern π} {base base' : Nat} {onward onward' : List Nat}
    (h : Twins P Q p q base base' onward onward') :
    Counterpart P Q (base + p.exitOffset) (base' + q.exitOffset)

namespace Twins

variable {P Q p q : Pattern π} {base base' : Nat} {onward onward' : List Nat}

/-! ## What is in the same place -/

theorem reordered (h : Twins P Q p q base base' onward onward') : p.Reordered q := by
  induction h with
  | whole h => exact h
  | only _ ih =>
    obtain ⟨_, heq, hall⟩ := ih
    cases heq
    obtain ⟨_, _, heq, hp, -⟩ := hall
    cases heq
    exact hp
  | first _ ih =>
    obtain ⟨_, heq, hall⟩ := ih
    cases heq
    obtain ⟨_, _, heq, hp, -⟩ := hall
    cases heq
    exact hp
  | rest _ ih =>
    obtain ⟨_, heq, hall⟩ := ih
    cases heq
    obtain ⟨_, _, heq, -, hps⟩ := hall
    cases heq
    exact ⟨_, rfl, hps⟩
  | branch _ _ _ hpq => exact hpq
  | copy _ _ ih =>
    obtain ⟨_, _, heq, hp⟩ := ih
    cases heq
    exact hp

theorem symm (h : Twins P Q p q base base' onward onward') :
    Twins Q P q p base' base onward' onward := by
  induction h with
  | whole h => exact .whole h.symm
  | only _ ih => exact .only ih
  | first _ ih => exact .first ih
  | rest _ ih => exact .rest ih
  | branch _ hp hq hpq ih => exact .branch ih hq hp hpq.symm
  | copy _ hk ih => exact .copy ih hk

/-- The automaton of the first pattern has the block. -/
theorem holds (h : Twins P Q p q base base' onward onward') :
    (ofPattern P).Holds base (p.layout base onward) := by
  induction h with
  | whole => exact holds_ofPattern P
  | only _ ih => exact ih
  | first _ ih => exact (holds_sequence ih).1
  | rest _ ih => exact (holds_sequence ih).2
  | branch _ hp _ _ ih =>
    obtain ⟨-, hleft, hright⟩ := holds_alternation ih
    rcases List.mem_cons.1 hp with heq | hp
    · cases heq
      exact hleft
    · cases List.mem_singleton.1 hp
      exact hright
  | copy _ hk ih => exact (holds_repetition ih).2.1 _ hk

end Twins

theorem Counterpart.symm {P Q : Pattern π} {s s' : Nat} (h : Counterpart P Q s s') :
    Counterpart Q P s' s := by
  cases h with
  | entry h => exact .entry h.symm
  | exit h => exact .exit h.symm

theorem flip_counterpart (P Q : Pattern π) : flip (Counterpart P Q) = Counterpart Q P := by
  funext s' s
  exact propext ⟨Counterpart.symm, Counterpart.symm⟩

namespace Twins

variable {P Q p q : Pattern π} {base base' : Nat} {onward onward' : List Nat}

/-! ## Where exits lead -/

/-- The junctions of a repetition lead to states in the same place. -/
theorem covered_plan {min : Nat} {max : Option Nat} {greedy greedy' : Bool}
    (h : Twins P Q (.repetition p min max greedy) (.repetition q min max greedy') base base'
      onward onward') {k : Nat} (hk : k ≤ copies min max) :
    Covered (Counterpart P Q) ((copyPlan p base min max greedy).onward k)
      ((copyPlan q base' min max greedy').onward k) := by
  intro t ht
  rcases CopyPlan.mem_onward hk ht with ⟨rfl, hlt⟩ | ⟨rfl, hmin, hend⟩ | ⟨rfl, hmax, rfl⟩
  · exact ⟨_, CopyPlan.copyStart_mem_onward hlt, .entry (h.copy hlt)⟩
  · have haccept : Counterpart P Q (base + (1 + min * p.stateCount))
        (base' + (1 + min * q.stateCount)) := .exit h
    rw [← Nat.add_assoc, ← Nat.add_assoc] at haccept
    exact ⟨_, CopyPlan.accept_mem_onward hmin hend, haccept⟩
  · -- The junction at which the loop is entered is the entry of the repetition, or the exit
    -- of the last copy that has to be there.
    refine ⟨_, CopyPlan.junction_mem_onward hmax, ?_⟩
    have hloop : ∀ n, n = min → Counterpart P Q ((copyPlan p base min max greedy).junction n)
        ((copyPlan q base' min max greedy').junction n) := by
      intro n hn
      cases n with
      | zero => exact .entry h
      | succ n => exact .exit (h.copy (Nat.lt_of_lt_of_le (by omega) (min_le_copies min max)))
    exact hloop min rfl

/-- **Exits in the same place lead to the same places.** The induction is on how the blocks
were come to: where a part leads was said by what is around it. -/
theorem covered_onward (h : Twins P Q p q base base' onward onward') :
    Covered (Counterpart P Q) onward onward' := by
  induction h with
  | whole =>
    intro t ht
    cases ht
  | only _ ih => exact ih
  | first h =>
    intro t ht
    rw [List.mem_singleton.1 ht]
    exact ⟨_, List.mem_singleton_self _, .entry h.rest⟩
  | rest _ ih => exact ih
  | @branch l r l' r' _ _ base base' _ _ _ _ h =>
    have hjoin : Counterpart P Q (base + (1 + l.stateCount + r.stateCount))
        (base' + (1 + l'.stateCount + r'.stateCount)) := .exit h
    simp only [← Nat.add_assoc] at hjoin
    intro t ht
    rw [List.mem_singleton.1 ht]
    exact ⟨_, List.mem_singleton_self _, hjoin⟩
  | copy h hk => exact h.covered_plan hk

/-- An exit that leads nowhere is the exit of the whole, on both sides. -/
theorem exit_eq (h : Twins P Q p q base base' onward onward') (honward : onward = []) :
    base' + q.exitOffset = Q.exitOffset := by
  induction h with
  | whole => exact Nat.zero_add _
  | only _ ih =>
    rw [← ih honward]
    simp only [exitOffset, sequenceExit]
  | first => exact absurd honward (List.cons_ne_nil _ _)
  | rest _ ih =>
    rw [← ih honward]
    simp only [exitOffset, sequenceExit, Nat.add_assoc]
  | branch => exact absurd honward (List.cons_ne_nil _ _)
  | copy => exact absurd honward (CopyPlan.onward_ne_nil _ _)

theorem mimics_exit (h : Twins P Q p q base base' onward onward') :
    Mimics (Counterpart P Q) (ofPattern P) (ofPattern Q) (base + p.exitOffset)
      (base' + q.exitOffset) :=
  mimics_junction h.holds.exit h.symm.holds.exit h.covered_onward

/-! ## What entries lead to -/

/-- **Entries in the same place do the same.** The entry of a sequence is the entry of its
first child; any other entry leads into its own block. -/
theorem mimics_entry : (p : Pattern π) → {q : Pattern π} → {base base' : Nat} →
    {onward onward' : List Nat} → Twins P Q p q base base' onward onward' →
    Mimics (Counterpart P Q) (ofPattern P) (ofPattern Q) base base'
  | .predicate handle, q, base, base', onward, onward', h => by
    have hq : q = .predicate handle := h.reordered
    subst hq
    exact mimics_reader h.holds.first h.symm.holds.first (.exit h)
  | .any, q, base, base', onward, onward', h => by
    have hq : q = .any := h.reordered
    subst hq
    exact mimics_reader h.holds.first h.symm.holds.first (.exit h)
  | .anchor condition, q, base, base', onward, onward', h => by
    have hq : q = .anchor condition := h.reordered
    subst hq
    exact mimics_gate h.holds.first h.symm.holds.first (.exit h)
  | .sequence [], q, base, base', onward, onward', h => by
    obtain ⟨_, rfl, rfl⟩ := h.reordered
    refine mimics_junction h.holds.first h.symm.holds.first fun t ht => ?_
    rw [List.mem_singleton.1 ht]
    exact ⟨_, List.mem_singleton_self _, .exit h⟩
  | .sequence [child], q, base, base', onward, onward', h => by
    obtain ⟨_, rfl, _, _, rfl, -, rfl⟩ := h.reordered
    -- A sequence has no states of its own, so its entry is that of the child.
    exact mimics_entry child h.only
  | .sequence (child :: next :: others), q, base, base', onward, onward', h => by
    obtain ⟨_, rfl, _, _, rfl, -, _, _, rfl, -, -⟩ := h.reordered
    exact mimics_entry child h.first
  | .repetition child min max greedy, q, base, base', onward, onward', h => by
    obtain ⟨_, _, rfl, -⟩ := h.reordered
    exact mimics_junction (holds_repetition h.holds).1 (holds_repetition h.symm.holds).1
      (h.covered_plan (Nat.zero_le _))
  | .alternation left right, q, base, base', onward, onward', h => by
    have hl : (left, base + 1) ∈ branches left right base := by simp [branches]
    have hr : (right, base + 1 + left.stateCount) ∈ branches left right base := by simp [branches]
    obtain ⟨left', right', rfl | rfl, hleft, hright⟩ := h.reordered
    · have hl' : (left', base' + 1) ∈ branches left' right' base' := by simp [branches]
      have hr' : (right', base' + 1 + left'.stateCount) ∈ branches left' right' base' := by
        simp [branches]
      refine mimics_junction (holds_alternation h.holds).1 (holds_alternation h.symm.holds).1 ?_
      intro t ht
      rcases List.mem_cons.1 ht with rfl | ht
      · exact ⟨_, List.mem_cons_self, .entry (h.branch hl hl' hleft)⟩
      · rw [List.mem_singleton.1 ht]
        exact ⟨_, by simp, .entry (h.branch hr hr' hright)⟩
    · -- Each branch is the other one here.
      have hl' : (left', base' + 1 + right'.stateCount) ∈ branches right' left' base' := by
        simp [branches]
      have hr' : (right', base' + 1) ∈ branches right' left' base' := by simp [branches]
      refine mimics_junction (holds_alternation h.holds).1 (holds_alternation h.symm.holds).1 ?_
      intro t ht
      rcases List.mem_cons.1 ht with rfl | ht
      · exact ⟨_, by simp, .entry (h.branch hl hl' hleft)⟩
      · rw [List.mem_singleton.1 ht]
        exact ⟨_, List.mem_cons_self, .entry (h.branch hr hr' hright)⟩

end Twins

theorem Counterpart.accept_of_accept {P Q : Pattern π} {s s' : Nat} (h : Counterpart P Q s s')
    (hs : s = (ofPattern P).accept) : s' = (ofPattern Q).accept := by
  -- The accepting state leads nowhere, so it is no entry, and no exit but the last one.
  have haccept : (ofPattern P).state? s = some (.junction []) := by
    have hexit := (holds_ofPattern P).exit
    rw [Nat.zero_add] at hexit
    exact hs ▸ hexit
  cases h with
  | entry h => exact absurd haccept h.holds.entry_ne
  | exit h =>
    have hexit := h.holds.exit
    rw [haccept] at hexit
    cases hexit
    exact h.exit_eq rfl

/-- **Preference has no part in what an automaton can do.** -/
theorem bisimulation_ofPattern {P Q : Pattern π} (h : P.Reordered Q) :
    Bisimulation (Counterpart P Q) (ofPattern P) (ofPattern Q) := by
  have hforth : ∀ {P Q : Pattern π} {s s' : Nat}, Counterpart P Q s s' →
      Mimics (Counterpart P Q) (ofPattern P) (ofPattern Q) s s' := by
    rintro P Q _ _ (h | h)
    · exact Twins.mimics_entry _ h
    · exact h.mimics_exit
  refine ⟨.entry (.whole h), fun s s' => hforth, fun s s' hs => ?_, fun s s' hs =>
    ⟨hs.accept_of_accept, hs.symm.accept_of_accept⟩⟩
  rw [flip_counterpart]
  exact hforth hs.symm

end Motif
