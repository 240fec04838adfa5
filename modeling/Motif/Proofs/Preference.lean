/-
What preference changes and what it does not.

Two patterns may differ in the order of the branches of their alternations and in their
greedy flags. They mean the same, so there is a match at an offset for both or for neither;
only its length depends on whether long or short matches are preferred, and that is decided
once for a whole pattern. If both patterns prefer the same, nothing that a caller can ask
of their matchers tells them apart: their automata do the same, state by state, although
the states are numbered and ordered in different ways.
-/
import Motif.Proofs.Lengths
import Motif.Proofs.Mirror
import Motif.Proofs.Twins

set_option autoImplicit false

namespace Motif

variable {π α μ ε : Type}

namespace Matcher

/-- Patterns that differ in preference alone have automata that accept the same. -/
theorem accepts_iff_of_reordered {p q : Pattern π} (hpq : p.Reordered q) (holds : π → α → Bool)
    (xs : List α) (offset n : Nat) :
    (ofPattern p).Accepts holds xs offset n ↔ (ofPattern q).Accepts holds xs offset n := by
  rw [accepts_ofPattern_iff, accepts_ofPattern_iff]
  exact hpq.spans_iff holds xs p offset (offset + n)

/-- **One offset.** Both patterns match or neither does, and which length they come to is a
matter of preference. -/
theorem exists_lengthAt_reordered {p q : Pattern π} (hpq : p.Reordered q)
    {P : Predicates π α μ ε} {holds : π → α → Bool} (hP : P.Answers holds) (xs : List α)
    {offset : Nat} (hoffset : offset ≤ xs.length) (env env' : Env π α μ) :
    ∃ best best', (((ofPattern p).lengthAt P xs offset).outcome env).1 = .ok best ∧
      (((ofPattern q).lengthAt P xs offset).outcome env').1 = .ok best' ∧
      (best = none ↔ best' = none) ∧
      (p.isGreedy = q.isGreedy → best = best') ∧
      (p.isGreedy = true → q.isGreedy = false →
        ∀ n n', best = some n → best' = some n' → n' ≤ n) := by
  obtain ⟨best, hbest, hp⟩ := (ensures_lengthAt_preferred (m := ofPattern p)
    (Automaton.linked_ofPattern p) hP xs hoffset).exists_ok env
  obtain ⟨best', hbest', hq⟩ := (ensures_lengthAt_preferred (m := ofPattern q)
    (Automaton.linked_ofPattern q) hP xs hoffset).exists_ok env'
  -- Both lengths are chosen among the same ones.
  have hsame : Preferred q.isGreedy ((ofPattern p).Accepts holds xs offset) best' :=
    hq.congr (accepts_iff_of_reordered hpq holds xs offset)
  refine ⟨best, best', hbest, hbest', hp.none_iff_none hsame, ?_, ?_⟩
  · intro hgreedy
    rw [← hgreedy] at hsame
    exact hp.unique hsame
  · rintro hgreedy - n n' rfl rfl
    exact hp.le_of_greedy hgreedy (hsame.possible_of_some n' rfl)

/-- Patterns that differ in preference alone, and prefer the same, have matchers that do
the same. -/
theorem mirrors_ofPattern {p q : Pattern π} (h : p.Reordered q)
    (hgreedy : p.isGreedy = q.isGreedy) :
    (ofPattern p).Mirrors (Counterpart p q) (ofPattern q) :=
  ⟨Automaton.linked_ofPattern p, Automaton.linked_ofPattern q, bisimulation_ofPattern h, hgreedy⟩

/-- **Preference never changes what can match.** Let two patterns differ only in the order
of branches and in greedy flags, and let the answers of the predicates depend on the element
alone. At every offset both match or neither does; where a greedy pattern and one that is
not both match, the match of the greedy one is at least as long. If both patterns are
greedy, or neither is, their matchers agree at every offset, in every search, and in what a
scanner returns at each of any calls. -/
theorem reordered_agrees {p q : Pattern π} (hpq : p.Reordered q) {P : Predicates π α μ ε}
    {holds : π → α → Bool} (hP : P.Answers holds) (input : List α) (env env' : Env π α μ) :
    (∀ offset ≤ input.length, ∃ best best',
      (((ofPattern p).lengthAt P input offset).outcome env).1 = .ok best ∧
      (((ofPattern q).lengthAt P input offset).outcome env').1 = .ok best' ∧
      (best = none ↔ best' = none) ∧
      (p.isGreedy = q.isGreedy → best = best') ∧
      (p.isGreedy = true → q.isGreedy = false →
        ∀ n n', best = some n → best' = some n' → n' ≤ n)) ∧
    (∀ offset, input.length < offset →
      (((ofPattern p).lengthAt P input offset).outcome env).1 =
        .error (.fault (.offsetPastEnd offset input.length)) ∧
      (((ofPattern q).lengthAt P input offset).outcome env').1 =
        .error (.fault (.offsetPastEnd offset input.length))) ∧
    (p.isGreedy = q.isGreedy →
      (∃ found, (((ofPattern p).allMatches P input).outcome env).1 = .ok found ∧
        (((ofPattern q).allMatches P input).outcome env').1 = .ok found ∧
        (((ofPattern p).firstMatch P input).outcome env).1 = .ok found.head? ∧
        (((ofPattern q).firstMatch P input).outcome env').1 = .ok found.head?) ∧
      ∀ calls : List (Call α), ∃ replies,
        (((ofPattern p).replies P calls).outcome env).1 = .ok replies ∧
        (((ofPattern q).replies P calls).outcome env').1 = .ok replies) := by
  refine ⟨fun offset hoffset => exists_lengthAt_reordered hpq hP input hoffset env env',
    fun offset hlt => ?_, fun hgreedy => ?_⟩
  · have hnot : ¬ offset ≤ input.length := Nat.not_le.2 hlt
    rw [lengthAt, lengthAt, if_neg hnot, if_neg hnot]
    exact ⟨rfl, rfl⟩
  -- One of the two searches returns, and the other one mirrors it.
  · have hmirrors := mirrors_ofPattern hpq hgreedy
    constructor
    · obtain ⟨found, hfound, -⟩ := (Search.ensures_all hmirrors.linked hP.neverPanics
        (Search.ofList input) (List.drop_zero (l := input)).symm).exists_ok env
      have hfound' : (((ofPattern q).allMatches P input).outcome env').1 = .ok found :=
        ((Search.corresponds_all hmirrors hP 0 input).result_eq env env').symm.trans hfound
      exact ⟨found, hfound, hfound', Search.next_of_all _ env hfound,
        Search.next_of_all _ env' hfound'⟩
    · intro calls
      obtain ⟨replies, hreplies, -⟩ :=
        (ensures_replies hmirrors.linked hP.neverPanics calls).exists_ok env
      have hreplies' := (hmirrors.corresponds_replies hP calls).result_eq env env'
      exact ⟨replies, hreplies, hreplies'.symm.trans hreplies⟩

/-- The theorem for two patterns that prefer short matches: in the second one the branches
are swapped, and it is another repetition that is lazy. -/
theorem reordered_agrees_swapped :
    (Pattern.alternation .any (.sequence [(Pattern.predicate ()).star,
        (Pattern.predicate ()).star.lazily])).Reordered
      (.alternation (.sequence [(Pattern.predicate ()).star.lazily,
        (Pattern.predicate ()).star]) .any) ∧
      (Predicates.ofTest (fun _ b => b) : Predicates Unit Bool Unit Unit).Answers (fun _ b => b) ∧
      ∀ calls : List (Call Bool), ∃ replies,
        (((ofPattern (.alternation .any (.sequence [(Pattern.predicate ()).star,
            (Pattern.predicate ()).star.lazily]))).replies
          (.ofTest (fun _ b => b) : Predicates Unit Bool Unit Unit) calls).outcome
            ⟨(), #[], #[]⟩).1 = .ok replies ∧
        (((ofPattern (.alternation (.sequence [(Pattern.predicate ()).star.lazily,
            (Pattern.predicate ()).star]) .any)).replies
          (.ofTest (fun _ b => b) : Predicates Unit Bool Unit Unit) calls).outcome
            ⟨(), #[], #[]⟩).1 = .ok replies := by
  have hswapped : (Pattern.alternation .any (.sequence [(Pattern.predicate ()).star,
        (Pattern.predicate ()).star.lazily])).Reordered
      (.alternation (.sequence [(Pattern.predicate ()).star.lazily,
        (Pattern.predicate ()).star]) .any) :=
    ⟨.any, _, Or.inr rfl, .refl _, _, rfl, _, _, rfl, ⟨_, _, rfl, .refl _⟩, _, _, rfl,
      ⟨_, _, rfl, .refl _⟩, rfl⟩
  refine ⟨hswapped, Predicates.answers_ofTest _, fun calls => ?_⟩
  exact ((reordered_agrees hswapped (Predicates.answers_ofTest _) [] ⟨(), #[], #[]⟩
    ⟨(), #[], #[]⟩).2.2 rfl).2 calls

end Matcher

end Motif
