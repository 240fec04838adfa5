/-
Two ways of writing a pattern.

A sequence may be written with brackets around some of its children, and a repetition whose
upper bound asks for no more than its lower bound may give any such bound and prefer
whatever it likes. These are differences in the tree and not in the automaton: the states
have the same numbers, and their edges are the same in the same order.

A layout is made from the outside to the inside, and of its child a node looks at no more
than the number of states, the place of the exit and the block. Patterns that agree in all
three (`SameBlock`) may therefore stand for each other at any depth. It is left to say why
the two sides of each rule agree (`Restates.sameBlock`). For sequences that is the one
equation that lays out two lists of children one behind the other (`layoutSequence_append`);
for repetitions it is that no junction leaves a choice once enough copies were made.
-/
import Motif.Automaton.Layout

set_option autoImplicit false

namespace Motif

variable {π : Type}

namespace Pattern

/-! ## Ways of writing the same -/

/-- The second pattern is another way of writing the first one. -/
inductive Restates : Pattern π → Pattern π → Prop where
  /-- A sequence that is not empty may stand for its children in another sequence. -/
  | inlined (before inner after : List (Pattern π)) (h : inner ≠ []) :
    Restates (sequence (before ++ sequence inner :: after)) (sequence (before ++ inner ++ after))
  /-- A sequence of one child is that child. -/
  | alone (child : Pattern π) : Restates (sequence [child]) child
  /-- An upper bound below the lower one is read as the lower one. -/
  | raised (child : Pattern π) (min max : Nat) (greedy : Bool) (h : max < min) :
    Restates (repetition child min (some max) greedy) (repetition child min (some min) greedy)
  /-- Where the number of copies is fixed there is nothing to prefer. -/
  | indifferent (child : Pattern π) (min max : Nat) (greedy : Bool) (h : max ≤ min) :
    Restates (repetition child min (some max) greedy) (repetition child min (some max) (!greedy))
  /-- No copies are nothing. -/
  | never (child : Pattern π) (greedy : Bool) :
    Restates (repetition child 0 (some 0) greedy) (sequence [])

/-- The second pattern is the first one with one part written differently, at any depth. -/
inductive Rewrites : Pattern π → Pattern π → Prop where
  | here {p q : Pattern π} (h : p.Restates q) : Rewrites p q
  | child (before after : List (Pattern π)) {p q : Pattern π} (h : Rewrites p q) :
    Rewrites (sequence (before ++ p :: after)) (sequence (before ++ q :: after))
  | repeated {p q : Pattern π} (min : Nat) (max : Option Nat) (greedy : Bool)
    (h : Rewrites p q) : Rewrites (repetition p min max greedy) (repetition q min max greedy)
  | left {p q : Pattern π} (other : Pattern π) (h : Rewrites p q) :
    Rewrites (alternation p other) (alternation q other)
  | right {p q : Pattern π} (other : Pattern π) (h : Rewrites p q) :
    Rewrites (alternation other p) (alternation other q)

/-! ## Patterns with the same block -/

/-- Wherever they are laid out and wherever they lead, the patterns have the same states
and the same exit. -/
structure SameBlock (p q : Pattern π) : Prop where
  stateCount_eq : p.stateCount = q.stateCount
  exitOffset_eq : p.exitOffset = q.exitOffset
  layout_eq : ∀ base onward, p.layout base onward = q.layout base onward

theorem SameBlock.refl (p : Pattern π) : p.SameBlock p := ⟨rfl, rfl, fun _ _ => rfl⟩

/-! ### Sequences -/

/-- A list of children is laid out behind another one like a child behind a child. -/
theorem layoutSequence_append {ps qs : List (Pattern π)} (hps : ps ≠ []) (hqs : qs ≠ []) :
    sequenceCount (ps ++ qs) = sequenceCount ps + sequenceCount qs ∧
      sequenceExit (ps ++ qs) = sequenceCount ps + sequenceExit qs ∧
      ∀ base onward, layoutSequence (ps ++ qs) base onward =
        layoutSequence ps base [base + sequenceCount ps] ++
          layoutSequence qs (base + sequenceCount ps) onward := by
  induction ps with
  | nil => exact absurd rfl hps
  | cons p ps ih =>
    cases ps with
    | nil =>
      -- Behind an only child there is a second one now.
      obtain ⟨q, qs, rfl⟩ := List.exists_cons_of_ne_nil hqs
      exact ⟨rfl, rfl, fun _ _ => rfl⟩
    | cons next ps =>
      obtain ⟨hcount, hexit, hlayout⟩ := ih (List.cons_ne_nil next ps)
      rw [List.cons_append] at hcount hexit hlayout
      simp only [List.cons_append, sequenceCount, sequenceExit, layoutSequence]
      refine ⟨by rw [hcount, Nat.add_assoc], by rw [hexit, Nat.add_assoc], fun base onward => ?_⟩
      rw [hlayout, List.append_assoc, Nat.add_assoc]

theorem SameBlock.append {ps ps' qs qs' : List (Pattern π)} (hps : ps ≠ []) (hps' : ps' ≠ [])
    (hqs : qs ≠ []) (hqs' : qs' ≠ []) (h : (sequence ps).SameBlock (sequence ps'))
    (h' : (sequence qs).SameBlock (sequence qs')) :
    (sequence (ps ++ qs)).SameBlock (sequence (ps' ++ qs')) := by
  obtain ⟨hcount, hexit, hlayout⟩ := layoutSequence_append hps hqs
  obtain ⟨hcount', hexit', hlayout'⟩ := layoutSequence_append hps' hqs'
  have hsame : sequenceCount ps = sequenceCount ps' := h.stateCount_eq
  have hsame' : sequenceCount qs = sequenceCount qs' := h'.stateCount_eq
  have hends : sequenceExit qs = sequenceExit qs' := h'.exitOffset_eq
  have hblock : ∀ base onward, layoutSequence ps base onward = layoutSequence ps' base onward :=
    h.layout_eq
  have hblock' : ∀ base onward, layoutSequence qs base onward = layoutSequence qs' base onward :=
    h'.layout_eq
  refine ⟨?_, ?_, fun base onward => ?_⟩
  · simp only [stateCount]
    rw [hcount, hcount', hsame, hsame']
  · simp only [exitOffset]
    rw [hexit, hexit', hsame, hends]
  · simp only [layout]
    rw [hlayout, hlayout', hsame, hblock, hblock']

/-- In the middle of a sequence, children may be replaced by others with the same block. -/
theorem SameBlock.within (before after : List (Pattern π)) {ps qs : List (Pattern π)}
    (hps : ps ≠ []) (hqs : qs ≠ []) (h : (sequence ps).SameBlock (sequence qs)) :
    (sequence (before ++ ps ++ after)).SameBlock (sequence (before ++ qs ++ after)) := by
  have hbefore : (sequence (before ++ ps)).SameBlock (sequence (before ++ qs)) := by
    by_cases hnil : before = []
    · rw [hnil]
      exact h
    · exact (SameBlock.refl _).append hnil hnil hps hqs h
  by_cases hnil : after = []
  · rw [hnil, List.append_nil, List.append_nil]
    exact hbefore
  · exact hbefore.append (List.append_ne_nil_of_right_ne_nil before hps)
      (List.append_ne_nil_of_right_ne_nil before hqs) hnil hnil (SameBlock.refl _)

/-- A child takes all of the block of a sequence that has no other one. -/
theorem sameBlock_alone (child : Pattern π) : (sequence [child]).SameBlock child :=
  ⟨rfl, rfl, fun _ _ => rfl⟩

/-! ### Repetitions and alternations -/

/-- A repetition looks at nothing but the block of its child. -/
theorem SameBlock.repetition {p q : Pattern π} (h : p.SameBlock q) (min : Nat)
    (max : Option Nat) (greedy : Bool) :
    (Pattern.repetition p min max greedy).SameBlock (.repetition q min max greedy) := by
  have hplan : ∀ base, copyPlan p base min max greedy = copyPlan q base min max greedy := by
    intro base
    rw [copyPlan, copyPlan, h.stateCount_eq, h.exitOffset_eq]
  refine ⟨?_, ?_, fun base onward => ?_⟩
  · simp only [stateCount, h.stateCount_eq]
  · simp only [exitOffset, h.stateCount_eq]
  · simp only [layout, hplan, h.layout_eq]

theorem SameBlock.alternation {p p' q q' : Pattern π} (h : p.SameBlock p')
    (h' : q.SameBlock q') : (Pattern.alternation p q).SameBlock (.alternation p' q') := by
  refine ⟨?_, ?_, fun base onward => ?_⟩
  · simp only [stateCount, h.stateCount_eq, h'.stateCount_eq]
  · simp only [exitOffset, h.stateCount_eq, h'.stateCount_eq]
  · simp only [layout, h.stateCount_eq, h'.stateCount_eq, h.layout_eq, h'.layout_eq]

/-- Once enough copies were made, a repetition that may make no more leads to its end. -/
theorem onward_copyPlan_of_le (child : Pattern π) (base : Nat) {min max : Nat} (greedy : Bool)
    (h : max ≤ min) (k : Nat) :
    (copyPlan child base min (some max) greedy).onward k =
      if k < min then [(copyPlan child base min none true).copyStart k]
      else [(copyPlan child base min none true).accept] := by
  unfold CopyPlan.onward
  by_cases hk : k < min
  · exact (if_pos hk).trans (if_pos hk).symm
  · have hmax : ¬ k < max := by omega
    exact ((if_neg hk).trans (if_neg hmax)).trans (if_neg hk).symm

/-- Upper bounds that ask for no more than the lower one are all the same, and so are
preferences. -/
theorem sameBlock_of_max_le (child : Pattern π) {min max max' : Nat} (greedy greedy' : Bool)
    (h : max ≤ min) (h' : max' ≤ min) :
    (repetition child min (some max) greedy).SameBlock
      (repetition child min (some max') greedy') := by
  have hcopies : copies min (some max) = copies min (some max') :=
    (Nat.max_eq_left h).trans (Nat.max_eq_left h').symm
  have hstart : ∀ base k, (copyPlan child base min (some max) greedy).copyStart k =
      (copyPlan child base min (some max') greedy').copyStart k := fun _ _ => rfl
  refine ⟨?_, rfl, fun base onward => ?_⟩
  · simp only [stateCount, hcopies]
  · simp only [layout, hcopies, hstart, onward_copyPlan_of_le child base _ h,
      onward_copyPlan_of_le child base _ h']

/-- No copies are an entry that leads to an exit. -/
theorem sameBlock_never (child : Pattern π) (greedy : Bool) :
    (repetition child 0 (some 0) greedy).SameBlock (sequence []) := by
  have hcopies : copies 0 (some 0) = 0 := rfl
  have haccept : ∀ base, (copyPlan child base 0 none true).accept = base + 1 := by
    intro base
    simp only [CopyPlan.accept, copyPlan, Nat.zero_mul, Nat.add_zero]
  refine ⟨?_, ?_, fun base onward => ?_⟩
  · simp only [stateCount, sequenceCount, hcopies, Nat.zero_mul]
  · simp only [exitOffset, sequenceExit, Nat.zero_mul]
  · simp only [layout, layoutSequence, hcopies, onward_copyPlan_of_le child base _ (Nat.le_refl 0),
      haccept, Nat.lt_irrefl, if_false, List.range_zero, List.range'_zero, List.flatMap_nil,
      Nat.sub_self, List.nil_append, List.cons_append]

/-! ## At any depth -/

/-- **One rule.** -/
theorem Restates.sameBlock {p q : Pattern π} (h : p.Restates q) : p.SameBlock q := by
  cases h with
  | inlined before inner after h =>
    have hinner := SameBlock.within before after (List.cons_ne_nil _ []) h
      (sameBlock_alone (sequence inner))
    rw [List.append_assoc, List.singleton_append] at hinner
    exact hinner
  | alone child => exact sameBlock_alone _
  | raised child min max greedy h =>
    exact sameBlock_of_max_le child greedy greedy (Nat.le_of_lt h) (Nat.le_refl min)
  | indifferent child min max greedy h => exact sameBlock_of_max_le child greedy (!greedy) h h
  | never child greedy => exact sameBlock_never child greedy

/-- **One rule somewhere inside.** The induction is on what stands around the part that is
written differently. -/
theorem Rewrites.sameBlock {p q : Pattern π} (h : p.Rewrites q) : p.SameBlock q := by
  induction h with
  | here h => exact h.sameBlock
  | @child before after p q _ ih =>
    have hchild : (sequence [p]).SameBlock (sequence [q]) :=
      ⟨ih.stateCount_eq, ih.exitOffset_eq, ih.layout_eq⟩
    have hall := SameBlock.within before after (List.cons_ne_nil p []) (List.cons_ne_nil q [])
      hchild
    rw [List.append_assoc, List.append_assoc, List.singleton_append, List.singleton_append] at hall
    exact hall
  | repeated min max greedy _ ih => exact ih.repetition min max greedy
  | left other _ ih => exact ih.alternation (SameBlock.refl other)
  | right other _ ih => exact (SameBlock.refl other).alternation ih

end Pattern

/-- **Ways of writing a pattern are not seen in its automaton.** If any part of a pattern, at
any depth, is written differently, the automaton is the same: the same numbers of the same
states, with the same edges in the same order. -/
theorem Automaton.ofPattern_eq_of_rewrites {p q : Pattern π} (h : p.Rewrites q) :
    ofPattern p = ofPattern q := by
  have hblock := h.sameBlock
  rw [ofPattern, ofPattern, hblock.layout_eq, hblock.exitOffset_eq]

/-- A sequence that is taken apart in the loop of the second branch of an alternation. -/
theorem Automaton.ofPattern_eq_of_rewrites_loop :
    (Pattern.alternation .any (.plus
        (.sequence [.predicate 'a', .sequence [.predicate 'b', .optional .any], .any]))).Rewrites
      (.alternation .any
        (.plus (.sequence [.predicate 'a', .predicate 'b', .optional .any, .any]))) ∧
    ofPattern (.alternation .any
        (.plus (.sequence [.predicate 'a', .sequence [.predicate 'b', .optional .any], .any]))) =
      ofPattern (.alternation .any
        (.plus (.sequence [.predicate 'a', .predicate 'b', .optional .any, .any]))) := by
  have hinlined : (Pattern.sequence
      [.predicate 'a', .sequence [.predicate 'b', .optional .any], .any]).Restates
      (.sequence [.predicate 'a', .predicate 'b', .optional .any, .any]) :=
    .inlined [.predicate 'a'] [.predicate 'b', .optional .any] [.any] (List.cons_ne_nil _ _)
  have hrewrites := Pattern.Rewrites.right .any (.repeated 1 none true (.here hinlined))
  exact ⟨hrewrites, ofPattern_eq_of_rewrites hrewrites⟩

end Motif
