/-
Which matches a search finds.

If the answers of the predicates depend on the element alone, then every position has
one preferred length, wherever and whenever it is asked for. The matches of a search
can then be told without a search: no position before a match or between two of them
begins a match that is not empty, and a match is as long as its first position
prefers (`Tiling`). There is one such list and not more.

That there is one is an induction on the search; what it has to carry along is the
position from which on the matches are a tiling. That there are not more is an
induction on the list, which never looks at the search: two tilings from the same
position must begin with the same match, because the first position of either match
has to be covered by the other tiling.
-/
import Mathlib.Data.List.Chain
import Motif.Proofs.Streaming

set_option autoImplicit false

namespace Motif

variable {π α μ ε : Type}

/-! ## Tilings -/

/-- Does the position belong to the match? -/
def Match.Covers (f : Match α) (i : Nat) : Prop := f.first ≤ i ∧ i ≤ f.last

/-- The matches are the leftmost ones from position `low` on that do not overlap. -/
structure Tiling (m : Matcher π) (P : Predicates π α μ ε) (input : List α) (low : Nat)
    (found : List (Match α)) : Prop where
  isPiece : ∀ f ∈ found, f.IsPiece input
  low_le : ∀ f ∈ found, low ≤ f.first
  /-- Each match ends before the next one begins. -/
  isChain : found.IsChain fun f g => f.last < g.first
  /-- Each match is as long as its first position prefers. -/
  length_eq : ∀ f ∈ found, (m.lengthAt P input f.first).Gives (some f.elements.length)
  /-- At no other position is there a match that is not empty. -/
  gap : ∀ i, low ≤ i → i < input.length → (∀ f ∈ found, ¬ f.Covers i) →
    (m.lengthAt P input i).Gives none ∨ (m.lengthAt P input i).Gives (some 0)

namespace Match

theorem IsPiece.first_le_last {input : List α} {f : Match α} (h : f.IsPiece input) :
    f.first ≤ f.last := by
  have := List.length_pos_iff.2 h.elements_ne_nil
  have := h.last_eq
  omega

/-- Matches of which each ends before the next begins do not overlap at all. -/
theorem pairwise_of_isChain {input : List α} {found : List (Match α)}
    (hpiece : ∀ f ∈ found, f.IsPiece input) (h : found.IsChain fun f g => f.last < g.first) :
    found.Pairwise fun f g => f.last < g.first := by
  induction found with
  | nil => exact List.Pairwise.nil
  | cons f rest ih =>
    have hrest := ih (fun g hg => hpiece g (List.mem_cons_of_mem f hg)) h.tail
    refine List.pairwise_cons.2 ⟨?_, hrest⟩
    intro g hg
    cases rest with
    | nil => cases hg
    | cons next rest =>
      -- The next match ends before all others begin, and it does not end before it begins.
      have hnext : f.last < next.first := (List.isChain_cons_cons.1 h).1
      rcases List.mem_cons.1 hg with rfl | hg
      · exact hnext
      · have hle := (hpiece next (by simp)).first_le_last
        have hlt := List.rel_of_pairwise_cons hrest hg
        omega

end Match

/-! ## There is at most one tiling -/

namespace Tiling

variable {m : Matcher π} {P : Predicates π α μ ε} {input : List α} {low : Nat}
  {f g : Match α} {found rest : List (Match α)}

theorem pairwise (h : Tiling m P input low found) :
    found.Pairwise fun f g => f.last < g.first :=
  Match.pairwise_of_isChain h.isPiece h.isChain

/-- What is behind the first match is a tiling from there on. -/
theorem tail (h : Tiling m P input low (f :: rest)) : Tiling m P input (f.last + 1) rest := by
  refine ⟨fun g hg => h.isPiece g (List.mem_cons_of_mem f hg), ?_, h.isChain.tail,
    fun g hg => h.length_eq g (List.mem_cons_of_mem f hg), ?_⟩
  · intro g hg
    exact List.rel_of_pairwise_cons h.pairwise hg
  · intro i hi hlt hgap
    have hlow := h.low_le f List.mem_cons_self
    have hle := (h.isPiece f List.mem_cons_self).first_le_last
    apply h.gap i (by omega) hlt
    intro g hg hcovers
    -- The first match covers no position behind it.
    rcases List.mem_cons.1 hg with rfl | hg
    · have := hcovers.2
      omega
    · exact hgap g hg hcovers

/-- A position with a match that is not empty is covered. -/
theorem exists_covers (h : Tiling m P input low found) (env : Env π α μ) {i n : Nat}
    (hlow : low ≤ i) (hlt : i < input.length) (hn : 0 < n)
    (hlength : (m.lengthAt P input i).Gives (some n)) : ∃ f ∈ found, f.Covers i := by
  by_cases hcovers : ∃ f ∈ found, f.Covers i
  · exact hcovers
  · -- Otherwise the preferred length would be another one.
    have hgap := h.gap i hlow hlt fun f hf hc => hcovers ⟨f, hf, hc⟩
    rcases hgap with hnone | hzero
    · have heq := (hlength env).symm.trans (hnone env)
      cases heq
    · have heq := (hlength env).symm.trans (hzero env)
      cases heq
      exact absurd hn (Nat.lt_irrefl 0)

/-- The first match of one tiling does not begin before the first match of another. -/
theorem first_le_first (env : Env π α μ) (h : Tiling m P input low found) (hf : f ∈ found)
    (h' : Tiling m P input low (g :: rest)) : g.first ≤ f.first := by
  have hpiece := h.isPiece f hf
  have hlt : f.first < input.length := Nat.lt_of_le_of_lt hpiece.first_le_last hpiece.last_lt
  obtain ⟨c, hc, hcovers⟩ := h'.exists_covers env (h.low_le f hf) hlt
    (List.length_pos_iff.2 hpiece.elements_ne_nil) (h.length_eq f hf)
  rcases List.mem_cons.1 hc with rfl | hc
  · exact hcovers.1
  · have hle := (h'.isPiece g List.mem_cons_self).first_le_last
    have hbefore := List.rel_of_pairwise_cons h'.pairwise hc
    have := hcovers.1
    omega

/-- Matches that begin in the same place are the same. -/
theorem eq_of_first_eq (env : Env π α μ) {found' : List (Match α)} (h : Tiling m P input low found)
    (hf : f ∈ found) (h' : Tiling m P input low found') (hg : g ∈ found')
    (hfirst : f.first = g.first) : f = g := by
  have hlength : f.elements.length = g.elements.length := by
    have hgives := h.length_eq f hf env
    rw [hfirst] at hgives
    have heq := hgives.symm.trans (h'.length_eq g hg env)
    injection heq with heq
    injection heq
  have hlast : f.last = g.last := by
    rw [(h.isPiece f hf).last_eq, (h'.isPiece g hg).last_eq, hfirst, hlength]
  have helements : f.elements = g.elements := by
    rw [(h.isPiece f hf).elements_eq, (h'.isPiece g hg).elements_eq, hfirst, hlast]
  cases f
  cases g
  simp_all

/-- **Two tilings are the same.** -/
theorem unique (env : Env π α μ) {found' : List (Match α)} (h : Tiling m P input low found)
    (h' : Tiling m P input low found') : found = found' := by
  induction found generalizing low found' with
  | nil =>
    cases found' with
    | nil => rfl
    | cons g rest' =>
      -- A tiling without matches covers nothing.
      have hpiece := h'.isPiece g List.mem_cons_self
      have hlt : g.first < input.length := Nat.lt_of_le_of_lt hpiece.first_le_last hpiece.last_lt
      obtain ⟨c, hc, -⟩ := h.exists_covers env (h'.low_le g List.mem_cons_self) hlt
        (List.length_pos_iff.2 hpiece.elements_ne_nil) (h'.length_eq g List.mem_cons_self)
      cases hc
  | cons f rest ih =>
    cases found' with
    | nil =>
      have hpiece := h.isPiece f List.mem_cons_self
      have hlt : f.first < input.length := Nat.lt_of_le_of_lt hpiece.first_le_last hpiece.last_lt
      obtain ⟨c, hc, -⟩ := h'.exists_covers env (h.low_le f List.mem_cons_self) hlt
        (List.length_pos_iff.2 hpiece.elements_ne_nil) (h.length_eq f List.mem_cons_self)
      cases hc
    | cons g rest' =>
      -- Neither first match begins before the other one.
      have hle := first_le_first env h List.mem_cons_self h'
      have hle' := first_le_first env h' List.mem_cons_self h
      have hsame := eq_of_first_eq env h List.mem_cons_self h' List.mem_cons_self
        (Nat.le_antisymm hle' hle)
      subst hsame
      rw [ih h.tail h'.tail]

end Tiling

/-! ## There is a tiling -/

section Exists

variable {m : Matcher π} {P : Predicates π α μ ε} {input : List α}

/-- Within the input, an offset is where an attempt is made. -/
theorem Matcher.lengthAt_of_le {offset : Nat} (h : offset ≤ input.length) :
    m.lengthAt P input offset = m.lengthAhead P offset (input.drop offset) := if_pos h

/-- If every position has one preferred length, the preferred length of the next
position is what the search goes by. -/
theorem Matcher.ensures_lengthAhead_gives {holds : π → α → Bool} {may : ε → Prop}
    (hm : m.automaton.Linked) (hP : P.PanicsOnly may) (hanswers : P.Answers holds)
    (position : Nat) (ahead : List α) :
    (m.lengthAhead P position ahead).Ensures may fun best =>
      (∀ n, best = some n → n ≤ ahead.length) ∧ (m.lengthAhead P position ahead).Gives best := by
  have hgives := (ensures_lengthAhead hm hP position ahead).and_gives (C := True)
    fun _ => m.alike_lengthAhead hanswers.respects position ahead
  exact hgives.mono fun best hbest => ⟨hbest.1, hbest.2 trivial⟩

/-- What a search has to do with the preferred lengths: its matches are that long, and
what it passes over has no match that is not empty. -/
theorem Search.ensures_all_gives {holds : π → α → Bool} {may : ε → Prop}
    (hm : m.automaton.Linked) (hP : P.PanicsOnly may) (hanswers : P.Answers holds)
    (s : Search m α) (hs : s.ahead = input.drop s.position) :
    (s.all P).Ensures may fun found =>
      (∀ f ∈ found, (m.lengthAt P input f.first).Gives (some f.elements.length)) ∧
        ∀ i, s.position ≤ i → i < input.length → (∀ f ∈ found, ¬ f.Covers i) →
          (m.lengthAt P input i).Gives none ∨ (m.lengthAt P input i).Gives (some 0) := by
  by_cases h : s.ahead = []
  · have hend : input.length ≤ s.position := List.drop_eq_nil_iff.1 (hs ▸ h)
    rw [all_of_ahead_eq_nil P h]
    exact Run.ensures_pure ⟨by simp, fun i hi hlt => absurd hlt (by omega)⟩
  · have hposition : s.position ≤ input.length := by
      refine Nat.le_of_not_lt fun hlt => h ?_
      rw [hs]
      exact List.drop_eq_nil_of_le (Nat.le_of_lt hlt)
    rw [all_of_ahead_ne_nil h]
    refine (Matcher.ensures_lengthAhead_gives hm hP hanswers _ _).bind ?_
    rintro best ⟨hle, hgives⟩
    rw [hs, ← Matcher.lengthAt_of_le hposition] at hgives
    obtain ⟨taken, htaken, -⟩ := Match.exists_taken?_eq_ok s.position hle
    have hpast : (s.past best).ahead = input.drop (s.past best).position := by
      rw [past, hs, List.drop_drop]
    rw [allAfter, htaken, Run.ofChecked_ok_bind]
    refine (ensures_all_gives hm hP hanswers (s.past best) hpast).bind ?_
    rintro rest ⟨hlengths, hgaps⟩
    apply Run.ensures_pure
    cases taken with
    | none =>
      -- The position of the attempt belongs to no match.
      have hbest := Match.of_taken?_eq_none htaken
      have hstride : stride best = 1 := by
        rcases hbest with rfl | rfl <;> rfl
      refine ⟨hlengths, ?_⟩
      intro i hi hlt hgap
      rcases Nat.eq_or_lt_of_le hi with rfl | hi
      · rcases hbest with rfl | rfl
        · exact Or.inl hgives
        · exact Or.inr hgives
      · refine hgaps i ?_ hlt hgap
        show s.position + stride best ≤ i
        rw [hstride]
        exact hi
    | some f =>
      -- The positions up to the stride belong to the match.
      obtain ⟨hsome, hlength, hfirst, hlast, helements⟩ := Match.of_taken?_eq_some htaken
      have hcount : f.elements.length = stride best := by
        rw [helements, List.length_take]
        exact Nat.min_eq_left hlength
      constructor
      · intro g hg
        rcases List.mem_cons.1 hg with rfl | hg
        · rw [hfirst, hcount, ← hsome]
          exact hgives
        · exact hlengths g hg
      · intro i hi hlt hgap
        have hnot := hgap f List.mem_cons_self
        refine hgaps i ?_ hlt fun g hg => hgap g (List.mem_cons_of_mem f hg)
        show s.position + stride best ≤ i
        apply Nat.le_of_not_lt
        intro hlt'
        exact hnot ⟨by omega, by omega⟩
termination_by s.ahead.length
decreasing_by exact length_past_lt h best

/-- **A search finds a tiling.** -/
theorem Search.ensures_all_tiling {holds : π → α → Bool} {may : ε → Prop}
    (hm : m.automaton.Linked) (hP : P.PanicsOnly may) (hanswers : P.Answers holds)
    (s : Search m α) (hs : s.ahead = input.drop s.position) :
    (s.all P).Ensures may (Tiling m P input s.position) := by
  have hall := ensures_all hm hP s hs
  refine (hall.and (ensures_all_gives hm hP hanswers s hs)).mono ?_
  rintro found ⟨⟨hordered, hpieces⟩, hlengths, hgaps⟩
  exact ⟨hpieces, fun f hf => (hordered.bounds f hf).1, hordered.pairwise.isChain, hlengths, hgaps⟩

end Exists

/-! ## All kinds of search -/

namespace Matcher

/-- Looking for the first match, and asking whether there is one, agree with looking
for all of them. -/
theorem firstMatch_hasMatch_of_allMatches {m : Matcher π} {P : Predicates π α μ ε}
    {input : List α} {env : Env π α μ} {found : List (Match α)}
    (h : ((m.allMatches P input).outcome env).1 = .ok found) :
    ((m.firstMatch P input).outcome env).1 = .ok found.head? ∧
      ((m.hasMatch P input).outcome env).1 = .ok (!found.isEmpty) := by
  have hfirst : ((m.firstMatch P input).outcome env).1 = .ok found.head? :=
    Search.next_of_all _ env h
  refine ⟨hfirst, (Run.result_bind_pure hfirst Option.isSome).trans ?_⟩
  cases found <;> rfl

/-- **What all kinds of search find.** As long as no predicate panics, searching an input
and searching it in one walk find the same matches; these are pieces of the input, none
is empty, and each ends before the next one begins. If the answers of the predicates
depend on the element alone, the matches are the only tiling of the input. -/
theorem exists_tiling (p : Pattern π) {P : Predicates π α μ ε} (hP : P.NeverPanics)
    (input : List α) (env : Env π α μ) :
    ∃ found, (((ofPattern p).allMatches P input).outcome env).1 = .ok found ∧
      (((ofPattern p).allMatchesOnce P input).outcome env).1 = .ok found ∧
      (((ofPattern p).firstMatch P input).outcome env).1 = .ok found.head? ∧
      (((ofPattern p).hasMatch P input).outcome env).1 = .ok (!found.isEmpty) ∧
      (∀ f ∈ found, f.IsPiece input) ∧
      (found.IsChain fun f g => f.last < g.first) ∧
      ((∃ holds, P.Answers holds) →
        ∀ tiles, Tiling (ofPattern p) P input 0 tiles ↔ tiles = found) := by
  have hm := Automaton.linked_ofPattern p
  have hinput : (Search.ofList input : Search (ofPattern p) α).ahead =
      input.drop (Search.ofList input : Search (ofPattern p) α).position :=
    (List.drop_zero (l := input)).symm
  obtain ⟨found, hfound, hordered, hpieces⟩ :=
    (Search.ensures_all (m := ofPattern p) hm hP (Search.ofList input) hinput).exists_ok env
  obtain ⟨honce, -⟩ := alike_allMatchesOnce (m := ofPattern p) hm P input env env
    (Env.SameButLog.refl env)
  obtain ⟨hfirst, htest⟩ := firstMatch_hasMatch_of_allMatches (m := ofPattern p) hfound
  refine ⟨found, hfound, honce.trans hfound, hfirst, htest, hpieces, hordered.pairwise.isChain, ?_⟩
  rintro ⟨holds, hanswers⟩ tiles
  -- What was found is a tiling, and there is no other one.
  obtain ⟨found', hfound', htiling⟩ := (Search.ensures_all_tiling (m := ofPattern p) hm hP hanswers
    (Search.ofList input) hinput).exists_ok env
  have hsame : found' = found := by
    have heq := hfound'.symm.trans hfound
    injection heq
  subst hsame
  constructor
  · intro h
    exact h.unique env htiling
  · rintro rfl
    exact htiling

/-- The theorem for one or more ones in three bits. -/
theorem exists_tiling_plus_ones :
    (Predicates.ofTest (fun _ b => b) : Predicates Unit Bool Unit Unit).NeverPanics ∧
      ∃ found, (((ofPattern (Pattern.predicate ()).plus).allMatches
          (.ofTest (fun _ b => b) : Predicates Unit Bool Unit Unit)
          [true, false, true]).outcome ⟨(), #[], #[]⟩).1 = .ok found ∧
        (∀ f ∈ found, f.IsPiece [true, false, true]) ∧
        ∀ tiles, Tiling (ofPattern (Pattern.predicate ()).plus)
          (.ofTest (fun _ b => b) : Predicates Unit Bool Unit Unit) [true, false, true] 0 tiles ↔
            tiles = found := by
  refine ⟨(Predicates.answers_ofTest _).neverPanics, ?_⟩
  obtain ⟨found, hfound, -, -, -, hpieces, -, hunique⟩ :=
    exists_tiling (Pattern.predicate ()).plus
      (P := (.ofTest (fun _ b => b) : Predicates Unit Bool Unit Unit))
      (Predicates.answers_ofTest _).neverPanics [true, false, true] ⟨(), #[], #[]⟩
  exact ⟨found, hfound, hpieces, hunique ⟨_, Predicates.answers_ofTest _⟩⟩

end Matcher

end Motif
