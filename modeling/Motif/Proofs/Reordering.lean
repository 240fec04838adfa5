/-
Patterns that differ in preference alone.

The branches of an alternation may be written in either order, and a repetition may be
greedy or lazy. Neither changes what a pattern spans (`Reordered.spans_iff`), at whatever
depth it is done. What changes is the order in which states are found, and whether long
or short matches are preferred.
-/
import Motif.Proofs.Meaning

set_option autoImplicit false

namespace Motif

variable {π α : Type}

namespace Pattern

mutual
/-- The second pattern is the first one with the branches of some alternations swapped and
with other greedy flags on some repetitions. -/
def Reordered : Pattern π → Pattern π → Prop
  | predicate handle, q => q = predicate handle
  | any, q => q = any
  | sequence children, q => ∃ children', q = sequence children' ∧ AllReordered children children'
  | repetition child min max _, q =>
    ∃ child' greedy', q = repetition child' min max greedy' ∧ Reordered child child'
  | alternation left right, q =>
    ∃ left' right', (q = alternation left' right' ∨ q = alternation right' left') ∧
      Reordered left left' ∧ Reordered right right'
  | anchor condition, q => q = anchor condition

/-- The same for two lists of patterns, one by one. -/
def AllReordered : List (Pattern π) → List (Pattern π) → Prop
  | [], qs => qs = []
  | p :: ps, qs => ∃ q qs', qs = q :: qs' ∧ Reordered p q ∧ AllReordered ps qs'
end

/-! ## Which patterns are related -/

mutual
theorem Reordered.refl : (p : Pattern π) → p.Reordered p
  | predicate _ => rfl
  | any => rfl
  | anchor _ => rfl
  | sequence children => ⟨children, rfl, AllReordered.refl children⟩
  | repetition child _ _ greedy => ⟨child, greedy, rfl, Reordered.refl child⟩
  | alternation left right =>
    ⟨left, right, Or.inl rfl, Reordered.refl left, Reordered.refl right⟩

theorem AllReordered.refl : (ps : List (Pattern π)) → AllReordered ps ps
  | [] => rfl
  | p :: ps => ⟨p, ps, rfl, Reordered.refl p, AllReordered.refl ps⟩
end

mutual
theorem Reordered.symm : (p : Pattern π) → {q : Pattern π} → p.Reordered q → q.Reordered p
  | predicate _, _, h => by rw [h, Reordered]
  | any, _, h => by rw [h, Reordered]
  | anchor _, _, h => by rw [h, Reordered]
  | sequence children, _, h => by
    obtain ⟨children', rfl, hall⟩ := h
    exact ⟨children, rfl, AllReordered.symm children hall⟩
  | repetition child min max greedy, _, h => by
    obtain ⟨child', greedy', rfl, hchild⟩ := h
    exact ⟨child, greedy, rfl, Reordered.symm child hchild⟩
  | alternation left right, _, h => by
    obtain ⟨left', right', rfl | rfl, hleft, hright⟩ := h
    · exact ⟨left, right, Or.inl rfl, Reordered.symm left hleft, Reordered.symm right hright⟩
    · exact ⟨right, left, Or.inr rfl, Reordered.symm right hright, Reordered.symm left hleft⟩

theorem AllReordered.symm : (ps : List (Pattern π)) → {qs : List (Pattern π)} →
    AllReordered ps qs → AllReordered qs ps
  | [], _, h => by rw [h, AllReordered]
  | p :: ps, _, h => by
    obtain ⟨q, qs', rfl, hp, hps⟩ := h
    exact ⟨p, ps, rfl, Reordered.symm p hp, AllReordered.symm ps hps⟩
end

/-! ## What they mean -/

theorem iterated_iff {R R' : Nat → Nat → Prop} (h : ∀ i j, R i j ↔ R' i j) (k i j : Nat) :
    Iterated R k i j ↔ Iterated R' k i j := by
  induction k generalizing i with
  | zero => exact Iff.rfl
  | succ k ih => exact exists_congr fun t => and_congr (h i t) (ih t)

mutual
/-- **Preference is no part of the meaning.** -/
theorem Reordered.spans_iff (holds : π → α → Bool) (xs : List α) :
    (p : Pattern π) → {q : Pattern π} → p.Reordered q → (i j : Nat) →
      (p.Spans holds xs i j ↔ q.Spans holds xs i j)
  | predicate _, _, h, _, _ => by rw [h]
  | any, _, h, _, _ => by rw [h]
  | anchor _, _, h, _, _ => by rw [h]
  | sequence children, _, h, i, j => by
    obtain ⟨children', rfl, hall⟩ := h
    simpa only [Spans] using AllReordered.spansAll_iff holds xs children hall i j
  | repetition child min max greedy, _, h, i, j => by
    obtain ⟨child', greedy', rfl, hchild⟩ := h
    have hspans := Reordered.spans_iff holds xs child hchild
    simp only [Spans]
    exact exists_congr fun k => and_congr_right fun _ => and_congr_right fun _ =>
      iterated_iff hspans k i j
  | alternation left right, _, h, i, j => by
    obtain ⟨left', right', rfl | rfl, hleft, hright⟩ := h
    · simp only [Spans]
      exact or_congr (Reordered.spans_iff holds xs left hleft i j)
        (Reordered.spans_iff holds xs right hright i j)
    · simp only [Spans]
      rw [or_comm]
      exact or_congr (Reordered.spans_iff holds xs right hright i j)
        (Reordered.spans_iff holds xs left hleft i j)

theorem AllReordered.spansAll_iff (holds : π → α → Bool) (xs : List α) :
    (ps : List (Pattern π)) → {qs : List (Pattern π)} → AllReordered ps qs → (i j : Nat) →
      (SpansAll holds xs ps i j ↔ SpansAll holds xs qs i j)
  | [], _, h, _, _ => by rw [h]
  | p :: ps, _, h, i, j => by
    obtain ⟨q, qs', rfl, hp, hps⟩ := h
    simp only [SpansAll]
    exact exists_congr fun t => and_congr (Reordered.spans_iff holds xs p hp i t)
      (AllReordered.spansAll_iff holds xs ps hps t j)
end

end Pattern

/-! ## Preferred lengths -/

namespace Preferred

variable {greedy greedy' : Bool} {possible : Nat → Prop} {best best' : Option Nat}

/-- There is only one preferred length. -/
theorem unique (h : Preferred greedy possible best) (h' : Preferred greedy possible best') :
    best = best' := by
  cases best with
  | none => exact (h'.none_iff.2 (h.none_iff.1 rfl)).symm
  | some n =>
    cases best' with
    | none => exact absurd (h.possible_of_some n rfl) (h'.none_iff.1 rfl n)
    | some k =>
      have hle := h.le_of_some n rfl k (h'.possible_of_some k rfl)
      have hle' := h'.le_of_some k rfl n (h.possible_of_some n rfl)
      cases greedy with
      | true => exact congrArg some (Nat.le_antisymm hle' hle)
      | false => exact congrArg some (Nat.le_antisymm hle hle')

/-- Whatever is preferred, there is a preferred length as soon as there is any. -/
theorem none_iff_none (h : Preferred greedy possible best)
    (h' : Preferred greedy' possible best') : best = none ↔ best' = none := by
  rw [h.none_iff, h'.none_iff]

/-- Nothing that is possible is longer than what a greedy preference comes to. -/
theorem le_of_greedy {n k : Nat} (h : Preferred greedy possible (some n)) (hgreedy : greedy = true)
    (hk : possible k) : k ≤ n := by
  have hle := h.le_of_some n rfl k hk
  rw [if_pos hgreedy] at hle
  exact hle

end Preferred

end Motif
