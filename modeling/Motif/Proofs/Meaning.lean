/-
What a pattern means, without any automaton.

A pattern is a relation between positions of an input: it spans from `i` to `j` if the
elements between them are one way of matching it (`Pattern.Spans`). A sequence composes
the relations of its children, an alternation unites two of them, and a repetition
unites the powers of one (`Iterated`). Whether long or short matches are preferred is no
part of that relation; it chooses among the lengths that the relation allows
(`Preferred`).

Predicates appear here as what they answer, and nothing else.
-/
import Motif.Pattern.Basic

set_option autoImplicit false

namespace Motif

variable {π α : Type}

/-! ## Powers of a relation -/

/-- The relation composed with itself, `k` factors in all. -/
def Iterated (R : Nat → Nat → Prop) : (k : Nat) → Nat → Nat → Prop
  | 0, i, j => i = j
  | k + 1, i, j => ∃ t, R i t ∧ Iterated R k t j

/-! ## The meaning of a pattern -/

namespace Pattern

mutual
/-- The elements from position `i` to position `j` match the pattern, if predicates answer
as `holds` says. -/
def Spans (holds : π → α → Bool) (xs : List α) : Pattern π → Nat → Nat → Prop
  | predicate handle, i, j => j = i + 1 ∧ ∃ x, xs[i]? = some x ∧ holds handle x = true
  | any, i, j => j = i + 1 ∧ ∃ x, xs[i]? = some x
  | sequence children, i, j => SpansAll holds xs children i j
  | repetition child min max _, i, j =>
    ∃ k, min ≤ k ∧ (∀ most, max = some most → k ≤ Max.max min most) ∧
      Iterated (fun i j => Spans holds xs child i j) k i j
  | alternation left right, i, j => Spans holds xs left i j ∨ Spans holds xs right i j
  | anchor .atStart, i, j => i = 0 ∧ j = 0
  | anchor .atEnd, i, j => i = xs.length ∧ j = xs.length

/-- The elements from position `i` to position `j` match the patterns one after the
other. -/
def SpansAll (holds : π → α → Bool) (xs : List α) : List (Pattern π) → Nat → Nat → Prop
  | [], i, j => i = j
  | child :: rest, i, j => ∃ t, Spans holds xs child i t ∧ SpansAll holds xs rest t j
end

end Pattern

/-! ## The preferred length -/

/-- Of the lengths that are possible, the preferred one: the largest or the smallest, or
none if there is none. -/
structure Preferred (greedy : Bool) (possible : Nat → Prop) (best : Option Nat) : Prop where
  none_iff : best = none ↔ ∀ n, ¬ possible n
  possible_of_some : ∀ n, best = some n → possible n
  le_of_some : ∀ n, best = some n → ∀ k, possible k → if greedy then k ≤ n else n ≤ k

namespace Preferred

variable {greedy : Bool} {possible possible' : Nat → Prop} {best : Option Nat}

theorem of_impossible (h : ∀ n, ¬ possible n) : Preferred greedy possible none :=
  ⟨⟨fun _ => h, fun _ => rfl⟩, fun _ hn => absurd hn (Option.some_ne_none _).symm,
    fun _ hn => absurd hn (Option.some_ne_none _).symm⟩

theorem of_some {n : Nat} (hn : possible n)
    (hle : ∀ k, possible k → if greedy then k ≤ n else n ≤ k) :
    Preferred greedy possible (some n) := by
  refine ⟨⟨?_, ?_⟩, ?_, ?_⟩
  · intro h
    exact absurd h (Option.some_ne_none n)
  · intro hnone
    exact absurd hn (hnone n)
  · rintro k hk
    cases hk
    exact hn
  · rintro k hk
    cases hk
    exact hle

/-- Only the possible lengths matter. -/
theorem congr (h : Preferred greedy possible best) (hiff : ∀ n, possible' n ↔ possible n) :
    Preferred greedy possible' best := by
  refine ⟨?_, fun n hn => (hiff n).2 (h.possible_of_some n hn), fun n hn k hk => ?_⟩
  · rw [h.none_iff]
    exact ⟨fun hnone n hn => hnone n ((hiff n).1 hn), fun hnone n hn => hnone n ((hiff n).2 hn)⟩
  · exact h.le_of_some n hn k ((hiff k).1 hk)

/-- A length beyond all others is preferred to them, unless short matches are preferred
and there was one. -/
theorem add {new : Nat} (h : Preferred greedy possible best)
    (hiff : ∀ n, possible' n ↔ possible n ∨ n = new) (hle : ∀ n, possible n → n ≤ new)
    (hlazy : greedy = false → best = none) : Preferred greedy possible' (some new) := by
  apply of_some ((hiff new).2 (Or.inr rfl))
  intro k hk
  rcases (hiff k).1 hk with hk | rfl
  · cases hgreedy : greedy with
    | true => exact hle k hk
    | false => exact absurd hk (h.none_iff.1 (hlazy hgreedy) k)
  · split
    · exact Nat.le_refl k
    · exact Nat.le_refl k

end Preferred

end Motif
