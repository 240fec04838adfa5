/-
What a budget decides.

Whether a pattern is laid out within a budget is decided by a count in machine words,
before there is any layout. The count gives up wherever it meets a number that is not a
word, and it looks at every subpattern, also at one that a repetition lays out zero times.
So it comes to a number exactly if the counts of all subpatterns are words
(`Pattern.Countable`), and the number is then the exact count of the pattern itself
(`checkedStateCount_eq_some_iff`). No number wraps around on the way: sums and products
are compared with the word limit before they are used, and each of them is the exact count
of some subpattern or less.

With the length of a layout that settles what the budget does. It does not settle what
compiling comes to, because a count that is a word may still be more states than there can
be room for, and a large budget lets it through. So there are three ends, and each has a
condition of its own (`compileWithin_eq_iff`): an automaton of exactly the counted states, a
refusal, and a fault. The fault is what a budget is there to prevent.

A subpattern of which there is a copy in the layout is never larger than the layout. So a
pattern whose layout fits is refused for one reason only: the count also looked at something
that is repeated no times, and that would have been too large
(`Automaton.ofPatternWithin_iff_of_size_le`).
-/
import Mathlib.Algebra.Ring.Nat
import Motif.Matcher

set_option autoImplicit false

namespace Motif

variable {π α μ ε : Type}

namespace Pattern

/-! ## Subpatterns -/

mutual
/-- The pattern itself and every pattern that occurs in it. -/
def subpatterns : Pattern π → List (Pattern π)
  | predicate handle => [predicate handle]
  | any => [any]
  | sequence children => sequence children :: subpatternsOfAll children
  | repetition child min max greedy => repetition child min max greedy :: subpatterns child
  | alternation left right => alternation left right :: (subpatterns left ++ subpatterns right)
  | anchor condition => [anchor condition]

/-- Every pattern of a list and every pattern that occurs in one of them. -/
def subpatternsOfAll : List (Pattern π) → List (Pattern π)
  | [] => []
  | child :: rest => subpatterns child ++ subpatternsOfAll rest
end

/-- The exact count of every subpattern is a word. It does not matter how often the
subpattern is laid out. -/
def Countable (p : Pattern π) : Prop := ∀ q ∈ p.subpatterns, q.stateCount < wordLimit

/-- The exact counts of all subpatterns of a list are words. -/
def AllCountable (ps : List (Pattern π)) : Prop :=
  ∀ q ∈ subpatternsOfAll ps, q.stateCount < wordLimit

/-! ### Subpatterns node by node -/

theorem allCountable_cons {child : Pattern π} {rest : List (Pattern π)} :
    AllCountable (child :: rest) ↔ child.Countable ∧ AllCountable rest := by
  simp only [AllCountable, Countable, subpatternsOfAll, List.forall_mem_append]

theorem countable_sequence {children : List (Pattern π)} :
    (sequence children).Countable ↔
      (sequence children).stateCount < wordLimit ∧ AllCountable children := by
  simp only [Countable, AllCountable, subpatterns, List.forall_mem_cons]

theorem countable_repetition {child : Pattern π} {min : Nat} {max : Option Nat} {greedy : Bool} :
    (repetition child min max greedy).Countable ↔
      (repetition child min max greedy).stateCount < wordLimit ∧ child.Countable := by
  simp only [Countable, subpatterns, List.forall_mem_cons]

theorem countable_alternation {left right : Pattern π} :
    (alternation left right).Countable ↔
      (alternation left right).stateCount < wordLimit ∧ left.Countable ∧ right.Countable := by
  simp only [Countable, subpatterns, List.forall_mem_cons, List.forall_mem_append]

/-! ## The exact count -/

/-- A sequence that is not empty counts what its children count together. -/
theorem stateCount_sequence_cons (child : Pattern π) (rest : List (Pattern π)) :
    (sequence (child :: rest)).stateCount = ((child :: rest).map stateCount).sum := by
  simp only [stateCount]
  induction rest generalizing child with
  | nil => simp [sequenceCount]
  | cons next rest ih => rw [sequenceCount, ih next, List.map_cons (l := next :: rest), List.sum_cons]

/-! ## The count in words -/

mutual
/-- **The count in words is exact.** There is an answer if and only if the counts of all
subpatterns are words, and then it is the exact count. -/
theorem checkedStateCount_eq_some_iff : (p : Pattern π) → (n : Nat) →
    (p.checkedStateCount = some n ↔ p.Countable ∧ p.stateCount = n)
  | predicate _, n => by simp [checkedStateCount, Countable, subpatterns, stateCount, wordLimit]
  | any, n => by simp [checkedStateCount, Countable, subpatterns, stateCount, wordLimit]
  | anchor _, n => by simp [checkedStateCount, Countable, subpatterns, stateCount, wordLimit]
  | sequence [], n => by
    simp [checkedStateCount, Countable, subpatterns, subpatternsOfAll, stateCount, sequenceCount,
      wordLimit]
  | sequence (child :: rest), n => by
    rw [checkedStateCount, checkedSum_eq_some_iff, countable_sequence, stateCount_sequence_cons,
      and_left_comm, and_assoc]
  | repetition child min max greedy, n => by
    rw [countable_repetition]
    simp only [checkedStateCount, Option.bind_eq_bind, Option.bind_eq_some_iff,
      word?_eq_some_iff, checkedStateCount_eq_some_iff child, stateCount]
    constructor
    · rintro ⟨k, ⟨hchild, rfl⟩, hlt, rfl⟩
      exact ⟨⟨hlt, hchild⟩, rfl⟩
    · rintro ⟨⟨hlt, hchild⟩, rfl⟩
      exact ⟨_, ⟨hchild, rfl⟩, hlt, rfl⟩
  | alternation left right, n => by
    rw [countable_alternation]
    simp only [checkedStateCount, Option.bind_eq_bind, Option.bind_eq_some_iff,
      word?_eq_some_iff, checkedStateCount_eq_some_iff left,
      checkedStateCount_eq_some_iff right, stateCount]
    constructor
    · rintro ⟨k, ⟨hleft, rfl⟩, l, ⟨hright, rfl⟩, hlt, rfl⟩
      exact ⟨⟨hlt, hleft, hright⟩, rfl⟩
    · rintro ⟨⟨hlt, hleft, hright⟩, rfl⟩
      exact ⟨_, ⟨hleft, rfl⟩, _, ⟨hright, rfl⟩, hlt, rfl⟩

/-- The sum of a list's counts has an answer if and only if the counts of all subpatterns
and the sum itself are words. -/
theorem checkedSum_eq_some_iff : (ps : List (Pattern π)) → (n : Nat) →
    (checkedSum ps = some n ↔
      AllCountable ps ∧ (ps.map stateCount).sum < wordLimit ∧ (ps.map stateCount).sum = n)
  | [], n => by simp [checkedSum, AllCountable, subpatternsOfAll, wordLimit]
  | child :: rest, n => by
    rw [allCountable_cons, List.map_cons, List.sum_cons]
    simp only [checkedSum, Option.bind_eq_bind, Option.bind_eq_some_iff, word?_eq_some_iff,
      checkedStateCount_eq_some_iff child, checkedSum_eq_some_iff rest]
    constructor
    · rintro ⟨k, ⟨hchild, rfl⟩, l, ⟨hrest, -, rfl⟩, hlt, rfl⟩
      exact ⟨⟨hchild, hrest⟩, hlt, rfl⟩
    · -- What is summed up on the way is no more than the whole.
      rintro ⟨⟨hchild, hrest⟩, hlt, rfl⟩
      exact ⟨_, ⟨hchild, rfl⟩, _, ⟨hrest, by omega, rfl⟩, hlt, rfl⟩
end

/-- **What fits into a budget.** -/
theorem fits_iff (budget : Nat) (p : Pattern π) :
    p.fits budget = true ↔ p.Countable ∧ p.stateCount ≤ budget := by
  unfold fits
  cases hcount : p.checkedStateCount with
  | some n =>
    obtain ⟨hcountable, rfl⟩ := (checkedStateCount_eq_some_iff p n).1 hcount
    simp [hcountable]
  | none =>
    have hnot : ¬ p.Countable := by
      intro hcountable
      rw [(checkedStateCount_eq_some_iff p p.stateCount).2 ⟨hcountable, rfl⟩] at hcount
      cases hcount
    simp [hnot]

end Pattern

/-! ## Building within a budget -/

namespace Automaton

theorem ofPatternWithin_of_fits {budget : Nat} {p : Pattern π} (h : p.fits budget = true) :
    ofPatternWithin budget p = .ok (ofPattern p) := if_pos h

theorem ofPatternWithin_of_not_fits {budget : Nat} {p : Pattern π} (h : ¬ p.fits budget = true) :
    ofPatternWithin budget p = .error .tooManyStates := if_neg h

/-! ### Room -/

theorem reserve_of_hasRoom {count : Nat} (h : HasRoom count) : reserve count = .ok () := if_pos h

theorem reserve_of_not_hasRoom {count : Nat} (h : ¬ HasRoom count) :
    reserve count = .error (.noRoom count) := if_neg h

/-- Room is asked for the exact number of states. -/
theorem reserveFor_of_countable {p : Pattern π} (h : p.Countable) :
    reserveFor p = reserve p.stateCount := by
  rw [reserveFor, (Pattern.checkedStateCount_eq_some_iff p _).2 ⟨h, rfl⟩]
  rfl

theorem compile_of_hasRoom {p : Pattern π} (h : p.Countable) (hroom : HasRoom p.stateCount) :
    compile p = .ok (ofPattern p) := by
  rw [compile, reserveFor_of_countable h, reserve_of_hasRoom hroom]
  rfl

theorem compile_of_not_hasRoom {p : Pattern π} (h : p.Countable)
    (hroom : ¬ HasRoom p.stateCount) : compile p = .error (.noRoom p.stateCount) := by
  rw [compile, reserveFor_of_countable h, reserve_of_not_hasRoom hroom]
  rfl

/-- A pattern that the budget lets through is compiled as it is without a budget. -/
theorem compileWithin_of_fits {budget : Nat} {p : Pattern π} (h : p.fits budget = true) :
    compileWithin budget p = (compile p).map .ok := by
  rw [compileWithin, compile, if_pos h, ofPatternWithin_of_fits h]
  cases reserveFor p <;> rfl

theorem compileWithin_of_not_fits {budget : Nat} {p : Pattern π} (h : ¬ p.fits budget = true) :
    compileWithin budget p = .ok (.error .tooManyStates) := by
  rw [compileWithin, if_neg h, ofPatternWithin_of_not_fits h]
  rfl

/-- **What compiling within a budget comes to**, one condition for each of three ends. -/
theorem compileWithin_eq_iff (budget : Nat) (p : Pattern π) :
    (compileWithin budget p = .ok (.ok (ofPattern p)) ↔
      (p.Countable ∧ p.stateCount ≤ budget) ∧ HasRoom p.stateCount) ∧
    (compileWithin budget p = .error (.noRoom p.stateCount) ↔
      (p.Countable ∧ p.stateCount ≤ budget) ∧ ¬ HasRoom p.stateCount) ∧
    (compileWithin budget p = .ok (.error .tooManyStates) ↔
      ¬ (p.Countable ∧ p.stateCount ≤ budget)) := by
  rw [← Pattern.fits_iff]
  -- The budget decides first. Only a pattern that it lets through comes to need room.
  by_cases h : p.fits budget = true
  · have hcountable := ((Pattern.fits_iff budget p).1 h).1
    rw [compileWithin_of_fits h]
    by_cases hroom : HasRoom p.stateCount
    · simp [h, hroom, compile_of_hasRoom hcountable hroom, Except.map]
    · simp [h, hroom, compile_of_not_hasRoom hcountable hroom, Except.map]
  · simp [h, compileWithin_of_not_fits h]

/-- If a pattern can be compiled without a budget, then with one only the budget decides. -/
theorem compileWithin_of_compile_eq_ok {p : Pattern π} {A : Automaton π}
    (h : compile p = .ok A) (budget : Nat) :
    compileWithin budget p = .ok (ofPatternWithin budget p) := by
  rw [compile] at h
  rw [compileWithin]
  cases hroom : reserveFor p with
  | error fault =>
    rw [hroom] at h
    cases h
  | ok =>
    -- There is room, so it does not matter whether any is asked for.
    split <;> rfl

end Automaton

namespace Matcher

theorem outcome_compile_of_hasRoom {p : Pattern π} (h : p.Countable)
    (hroom : Automaton.HasRoom p.stateCount) (env : Env π α μ) :
    (compile p : Run π α μ ε (Matcher π)).outcome env =
      (.ok (ofPattern p), { env with events := env.events.push (.compiled p p.stateCount) }) := by
  rw [compile, Automaton.compile_of_hasRoom h hroom, ← Automaton.size_ofPattern]
  rfl

/-- Without room nothing has happened. -/
theorem outcome_compile_of_not_hasRoom {p : Pattern π} (h : p.Countable)
    (hroom : ¬ Automaton.HasRoom p.stateCount) (env : Env π α μ) :
    (compile p : Run π α μ ε (Matcher π)).outcome env =
      (.error (.fault (.noRoom p.stateCount)), env) := by
  rw [compile, Automaton.compile_of_not_hasRoom h hroom]
  rfl

/-- A pattern that the budget lets through is compiled as it is without a budget, and the
log is the same. -/
theorem compileWithin_of_fits {budget : Nat} {p : Pattern π} (h : p.fits budget = true) :
    (compileWithin budget p : Run π α μ ε (Except BuildError (Matcher π))) =
      .ok <$> compile p := by
  rw [compileWithin, compile, Automaton.compileWithin_of_fits h]
  cases Automaton.compile p <;> rfl

theorem compileWithin_of_not_fits {budget : Nat} {p : Pattern π} (h : ¬ p.fits budget = true) :
    (compileWithin budget p : Run π α μ ε (Except BuildError (Matcher π))) =
      pure (.error .tooManyStates) := by
  rw [compileWithin, Automaton.compileWithin_of_not_fits h]
  rfl

/-- The same three ends with what is written to the log. -/
theorem outcome_compileWithin_iff (budget : Nat) (p : Pattern π) (env : Env π α μ) :
    let outcome :=
      (compileWithin budget p : Run π α μ ε (Except BuildError (Matcher π))).outcome env
    (outcome = (.ok (.ok (ofPattern p)),
        { env with events := env.events.push (.compiled p p.stateCount) }) ↔
      (p.Countable ∧ p.stateCount ≤ budget) ∧ Automaton.HasRoom p.stateCount) ∧
    (outcome = (.error (.fault (.noRoom p.stateCount)), env) ↔
      (p.Countable ∧ p.stateCount ≤ budget) ∧ ¬ Automaton.HasRoom p.stateCount) ∧
    (outcome = (.ok (.error .tooManyStates), env) ↔
      ¬ (p.Countable ∧ p.stateCount ≤ budget)) := by
  rw [← Pattern.fits_iff]
  by_cases h : p.fits budget = true
  · have hcountable := ((Pattern.fits_iff budget p).1 h).1
    rw [compileWithin_of_fits h, map_eq_pure_bind]
    by_cases hroom : Automaton.HasRoom p.stateCount
    · rw [Run.outcome_bind_of_ok (outcome_compile_of_hasRoom hcountable hroom env)]
      simp [h, hroom]
    · rw [Run.outcome_bind_of_error (outcome_compile_of_not_hasRoom hcountable hroom env)]
      simp [h, hroom]
  · simp [h, compileWithin_of_not_fits h]

/-- **A budget is exact as long as there is room.** Let the exact counts of all subpatterns
be words and that of the pattern itself be within the budget. Then compiling within the
budget is compiling without one. It makes an automaton of exactly that many states, if
there can be room for them; otherwise it is aborted before anything has happened, and the
budget is no protection. In all other cases the pattern is refused for having too many
states. -/
theorem compileWithin_iff (budget : Nat) (p : Pattern π) :
    (Automaton.compileWithin budget p = .ok (.ok (ofPattern p).automaton) ↔
      (p.Countable ∧ p.stateCount ≤ budget) ∧ Automaton.HasRoom p.stateCount) ∧
    (Automaton.compileWithin budget p = .error (.noRoom p.stateCount) ↔
      (p.Countable ∧ p.stateCount ≤ budget) ∧ ¬ Automaton.HasRoom p.stateCount) ∧
    (Automaton.compileWithin budget p = .ok (.error .tooManyStates) ↔
      ¬ (p.Countable ∧ p.stateCount ≤ budget)) ∧
    (∀ env : Env π α μ,
      let outcome :=
        (compileWithin budget p : Run π α μ ε (Except BuildError (Matcher π))).outcome env
      (outcome = (.ok (.ok (ofPattern p)),
          { env with events := env.events.push (.compiled p p.stateCount) }) ↔
        (p.Countable ∧ p.stateCount ≤ budget) ∧ Automaton.HasRoom p.stateCount) ∧
      (outcome = (.error (.fault (.noRoom p.stateCount)), env) ↔
        (p.Countable ∧ p.stateCount ≤ budget) ∧ ¬ Automaton.HasRoom p.stateCount) ∧
      (outcome = (.ok (.error .tooManyStates), env) ↔
        ¬ (p.Countable ∧ p.stateCount ≤ budget))) ∧
    (p.Countable ∧ p.stateCount ≤ budget →
      Automaton.compileWithin budget p = (Automaton.compile p).map .ok ∧
      (compileWithin budget p : Run π α μ ε (Except BuildError (Matcher π))) =
        .ok <$> compile p) ∧
    (ofPattern p).automaton.size = p.stateCount := by
  obtain ⟨hmade, hnoRoom, hrefused⟩ := Automaton.compileWithin_eq_iff budget p
  refine ⟨hmade, hnoRoom, hrefused, outcome_compileWithin_iff budget p, ?_,
    Automaton.size_ofPattern p⟩
  intro h
  have hfits := (Pattern.fits_iff budget p).2 h
  exact ⟨Automaton.compileWithin_of_fits hfits, compileWithin_of_fits hfits⟩

/-- **Being within the budget is not enough.** This pattern is counted without any overflow,
and its automaton would have `2 ^ 63 + 2` states. -/
theorem not_compileWithin_of_countable :
    ¬ ∀ (p : Pattern Char) (budget : Nat), budget < wordLimit →
      p.Countable → p.stateCount ≤ budget →
        Automaton.compileWithin budget p = .ok (.ok (ofPattern p).automaton) := by
  intro hbuilt
  have hfits : (.repetition (.repetition .any 0 (some 0xffffffff) true) 0 (some 0x40000000) true :
      Pattern Char).fits 0xffffffffffffffff = true := by decide
  obtain ⟨hcountable, hle⟩ := (Pattern.fits_iff _ _).1 hfits
  have hlarge := hbuilt _ _ (by decide) hcountable hle
  rw [Automaton.compileWithin_of_fits hfits,
    Automaton.compile_of_not_hasRoom hcountable (by decide)] at hlarge
  cases hlarge

end Matcher

/-! ## What is refused although it would fit -/

namespace Pattern

mutual
/-- The patterns that occur in a pattern but not in its layout: whatever is repeated no times,
and everything in it. -/
def idle : Pattern π → List (Pattern π)
  | predicate _ => []
  | any => []
  | sequence children => idleOfAll children
  | repetition child min max _ => if copies min max = 0 then subpatterns child else idle child
  | alternation left right => idle left ++ idle right
  | anchor _ => []

/-- The same for every pattern of a list. -/
def idleOfAll : List (Pattern π) → List (Pattern π)
  | [] => []
  | child :: rest => idle child ++ idleOfAll rest
end

mutual
theorem mem_subpatterns_of_mem_idle : (p : Pattern π) → {q : Pattern π} → q ∈ p.idle →
    q ∈ p.subpatterns
  | sequence children, _, hq => List.mem_cons_of_mem _ (mem_subpatternsOfAll_of_mem_idle children hq)
  | repetition child min max _, _, hq => by
    simp only [idle] at hq
    split at hq
    · exact List.mem_cons_of_mem _ hq
    · exact List.mem_cons_of_mem _ (mem_subpatterns_of_mem_idle child hq)
  | alternation left right, _, hq => by
    rcases List.mem_append.1 hq with hq | hq
    · exact List.mem_cons_of_mem _ (List.mem_append_left _ (mem_subpatterns_of_mem_idle left hq))
    · exact List.mem_cons_of_mem _ (List.mem_append_right _ (mem_subpatterns_of_mem_idle right hq))

theorem mem_subpatternsOfAll_of_mem_idle : (ps : List (Pattern π)) → {q : Pattern π} →
    q ∈ idleOfAll ps → q ∈ subpatternsOfAll ps
  | child :: rest, _, hq => by
    rcases List.mem_append.1 hq with hq | hq
    · exact List.mem_append_left _ (mem_subpatterns_of_mem_idle child hq)
    · exact List.mem_append_right _ (mem_subpatternsOfAll_of_mem_idle rest hq)
end

mutual
/-- **What is laid out is counted.** A subpattern of which there is a copy in the layout needs
no more states than the whole. -/
theorem mem_idle_or_stateCount_le : (p : Pattern π) → {q : Pattern π} → q ∈ p.subpatterns →
    q ∈ p.idle ∨ q.stateCount ≤ p.stateCount
  | predicate _, _, hq => Or.inr (Nat.le_of_eq (congrArg stateCount (List.mem_singleton.1 hq)))
  | any, _, hq => Or.inr (Nat.le_of_eq (congrArg stateCount (List.mem_singleton.1 hq)))
  | anchor _, _, hq => Or.inr (Nat.le_of_eq (congrArg stateCount (List.mem_singleton.1 hq)))
  | sequence children, _, hq => by
    rcases List.mem_cons.1 hq with rfl | hq
    · exact Or.inr (Nat.le_refl _)
    · refine (mem_idleOfAll_or_stateCount_le children hq).imp_right fun hle => ?_
      cases children with
      | nil => cases hq
      | cons child rest => rwa [stateCount_sequence_cons]
  | repetition child min max _, _, hq => by
    rcases List.mem_cons.1 hq with rfl | hq
    · exact Or.inr (Nat.le_refl _)
    · simp only [idle]
      split
      · exact Or.inl hq
      · -- There is one copy of the child at least.
        rename_i hcopies
        refine (mem_idle_or_stateCount_le child hq).imp_right fun hle => ?_
        have hcopy := Nat.le_mul_of_pos_left child.stateCount (Nat.pos_of_ne_zero hcopies)
        simp only [stateCount]
        omega
  | alternation left right, _, hq => by
    simp only [idle, stateCount, List.mem_append]
    rcases List.mem_cons.1 hq with rfl | hq
    · exact Or.inr (Nat.le_refl _)
    · rcases List.mem_append.1 hq with hq | hq
      · exact (mem_idle_or_stateCount_le left hq).imp Or.inl fun hle => by omega
      · exact (mem_idle_or_stateCount_le right hq).imp Or.inr fun hle => by omega

theorem mem_idleOfAll_or_stateCount_le : (ps : List (Pattern π)) → {q : Pattern π} →
    q ∈ subpatternsOfAll ps → q ∈ idleOfAll ps ∨ q.stateCount ≤ (ps.map stateCount).sum
  | child :: rest, _, hq => by
    simp only [idleOfAll, List.map_cons, List.sum_cons, List.mem_append]
    rcases List.mem_append.1 hq with hq | hq
    · exact (mem_idle_or_stateCount_le child hq).imp Or.inl fun hle => by omega
    · exact (mem_idleOfAll_or_stateCount_le rest hq).imp Or.inr fun hle => by omega
end

/-- If the count of a pattern is a word, only what it does not lay out can keep it from being
counted. -/
theorem countable_iff_of_lt {p : Pattern π} (h : p.stateCount < wordLimit) :
    p.Countable ↔ ∀ q ∈ p.idle, q.stateCount < wordLimit := by
  constructor
  · intro hcountable q hq
    exact hcountable q (mem_subpatterns_of_mem_idle p hq)
  · intro hidle q hq
    rcases mem_idle_or_stateCount_le p hq with hq | hle
    · exact hidle q hq
    · exact Nat.lt_of_le_of_lt hle h

end Pattern

namespace Automaton

/-- **Why a pattern that fits may be refused.** If the automaton of a pattern has no more
states than the budget allows, it is built within the budget unless the pattern repeats
something no times that could not be counted itself; in that case the pattern is refused.
If the pattern can be compiled at all, then that is also what compiling it within the budget
comes to. -/
theorem ofPatternWithin_iff_of_size_le {budget : Nat} {p : Pattern π}
    (hsize : (ofPattern p).size ≤ budget) (hbudget : budget < wordLimit) :
    (ofPatternWithin budget p = .ok (ofPattern p) ↔ ∀ q ∈ p.idle, q.stateCount < wordLimit) ∧
      (ofPatternWithin budget p = .error .tooManyStates ↔
        ∃ q ∈ p.idle, wordLimit ≤ q.stateCount) ∧
      ∀ A, compile p = .ok A → compileWithin budget p = .ok (ofPatternWithin budget p) := by
  rw [size_ofPattern] at hsize
  have hfits : p.fits budget = true ↔ ∀ q ∈ p.idle, q.stateCount < wordLimit := by
    rw [Pattern.fits_iff, Pattern.countable_iff_of_lt (Nat.lt_of_le_of_lt hsize hbudget)]
    exact and_iff_left hsize
  have hrefused : ¬ (∀ q ∈ p.idle, q.stateCount < wordLimit) ↔
      ∃ q ∈ p.idle, wordLimit ≤ q.stateCount := by
    simp only [not_forall, Nat.not_lt, exists_prop]
  have hcompile : ∀ A, compile p = .ok A →
      compileWithin budget p = .ok (ofPatternWithin budget p) :=
    fun A hA => compileWithin_of_compile_eq_ok hA budget
  rw [← hrefused, ← hfits, ← and_assoc]
  refine ⟨?_, hcompile⟩
  by_cases h : p.fits budget = true
  · simp [h, ofPatternWithin_of_fits h]
  · simp [h, ofPatternWithin_of_not_fits h]

/-- A repetition of no copies of three copies of any element. -/
theorem ofPatternWithin_iff_of_size_le_never :
    (ofPattern (.repetition (.repetition .any 3 (some 3) true) 0 (some 0) true :
        Pattern Char)).size ≤ 2 ∧
      2 < wordLimit ∧
      ofPatternWithin 2 (.repetition (.repetition .any 3 (some 3) true) 0 (some 0) true :
          Pattern Char) =
        .ok (ofPattern (.repetition (.repetition .any 3 (some 3) true) 0 (some 0) true)) := by
  have hsize : (ofPattern (.repetition (.repetition .any 3 (some 3) true) 0 (some 0) true :
      Pattern Char)).size ≤ 2 := Nat.le_of_eq (size_ofPattern _)
  refine ⟨hsize, by decide, (ofPatternWithin_iff_of_size_le hsize (by decide)).1.2 ?_⟩
  decide

/-- **A pattern that fits is not always built.** What is repeated no times here would need
more states than a word can count, and the automaton has two of them. -/
theorem not_ofPatternWithin_of_size_le :
    ¬ ∀ (p : Pattern Char) (budget : Nat), budget < wordLimit → (ofPattern p).size ≤ budget →
      ofPatternWithin budget p = .ok (ofPattern p) := by
  intro hbuilt
  have hsmall := hbuilt (.repetition (.repetition (.repetition .any 0 (some 0xffffffff) true)
    0 (some 0xffffffff) true) 0 (some 0) true) 2 (by decide) (Nat.le_of_eq (size_ofPattern _))
  rw [ofPatternWithin_of_not_fits (by decide)] at hsmall
  cases hsmall

end Automaton

end Motif
