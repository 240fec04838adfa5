/-
The length that an attempt comes to is the preferred one.

An attempt that knows the length of the input keeps, at every position, all states that
a route leads to and may enter there; and the best length so far is preferred among the
lengths that end where the attempt has been (`Attempt.Tracks`). Consuming an element
preserves that, because a route to the next position is a route to this one, a reading
edge, and a silent way.

When an attempt is over, no other length is left. At the end of the input there is no
position behind it. If no state is active, no route goes on. And if short matches are
preferred, the first one that was found is the shortest.

With what the layout of a pattern lets through, that makes an attempt at any position a
decision about the meaning of the pattern (`Matcher.exists_lengthAt_preferred`).
-/
import Motif.Proofs.Compilation
import Motif.Proofs.Attempt

set_option autoImplicit false

namespace Motif

variable {π α μ ε : Type}

/-- An automaton can be run from `offset` over `n` elements to its accepting state. -/
def Matcher.Accepts (m : Matcher π) (holds : π → α → Bool) (xs : List α) (offset n : Nat) :
    Prop :=
  m.automaton.Arrives holds xs m.automaton.start offset m.automaton.accept (offset + n)

namespace Attempt

variable {m : Matcher π} {holds : π → α → Bool} {xs : List α} {offset : Nat} {a : Attempt}

/-! ## What an attempt knows -/

/-- The attempt knows all routes to its position and has preferred the best length on the
way. -/
structure Tracks (m : Matcher π) (holds : π → α → Bool) (xs : List α) (offset : Nat)
    (a : Attempt) : Prop where
  start_eq : a.start = offset
  le_position : offset ≤ a.position
  position_le : a.position ≤ xs.length
  /-- The active states are those at which routes arrive. -/
  mem_active : ∀ q, q ∈ a.active.toList ↔
    m.automaton.Arrives holds xs m.automaton.start offset q a.position
  /-- The best length is preferred among those that end on the way. -/
  best : Preferred m.greedy (fun n => offset + n ≤ a.position ∧ m.Accepts holds xs offset n) a.best
  /-- An attempt for short matches that is alive has found none. -/
  best_eq_none : m.greedy = false → a.alive = true → a.best = none
  /-- An attempt is given up if no state is active, or if it has found a short match. -/
  dead : a.alive = false → a.active.toList = [] ∨ (m.greedy = false ∧ ∃ n, a.best = some n)

/-- An attempt for short matches does not live on once it has found one. -/
theorem accept_not_mem_of_alive {c : Closure} (hgreedy : m.greedy = false)
    (halive : (a.withClosure m c).alive = true) : m.automaton.accept ∉ c.states.toList := by
  intro haccept
  have hcontains : c.states.contains m.automaton.accept = true := StateSet.contains_iff.2 haccept
  simp only [withClosure, settled, hcontains, hgreedy] at halive
  exact Bool.false_ne_true halive

/-- There are two reasons to give an attempt up. -/
theorem states_eq_nil_of_dead {c : Closure} (hdead : (a.withClosure m c).alive = false) :
    c.states.toList = [] ∨ (m.greedy = false ∧ m.automaton.accept ∈ c.states.toList) := by
  by_cases hlazy : m.greedy = false ∧ m.automaton.accept ∈ c.states.toList
  · exact Or.inr hlazy
  · left
    have hcond : ¬ (c.states.contains m.automaton.accept && !m.greedy) = true := by
      intro hcond
      obtain ⟨hcontains, hgreedy⟩ := Bool.and_eq_true_iff.1 hcond
      exact hlazy ⟨Bool.not_eq_true' _ ▸ hgreedy, StateSet.contains_iff.1 hcontains⟩
    simp only [withClosure, settled, if_neg hcond, StateSet.isEmpty_eq] at hdead
    have hempty := (Bool.or_eq_false_iff.1 hdead).1
    rw [Bool.not_eq_false', List.isEmpty_iff] at hempty
    exact hempty

/-- **Bringing the closure up to date.** If the closure holds the states at which routes
arrive, the attempt knows the lengths that end at its position as well. -/
theorem tracks_withClosure {c : Closure} (hstart : a.start = offset)
    (hle : offset ≤ a.position) (hposition : a.position ≤ xs.length)
    (hc : ∀ q, q ∈ c.states.toList ↔
      m.automaton.Arrives holds xs m.automaton.start offset q a.position)
    (hbest : Preferred m.greedy
      (fun n => offset + n < a.position ∧ m.Accepts holds xs offset n) a.best)
    (hlazy : m.greedy = false → a.best = none) :
    (a.withClosure m c).Tracks m holds xs offset := by
  have hhere : ∀ n, offset + n = a.position →
      (m.Accepts holds xs offset n ↔ m.automaton.accept ∈ c.states.toList) := by
    intro n hn
    rw [hc, Matcher.Accepts, hn]
  by_cases haccept : m.automaton.accept ∈ c.states.toList
  · have hgiven : (a.withClosure m c).best = some (a.position - offset) := by
      change a.bestGiven m c = _
      rw [bestGiven, if_pos haccept, hstart]
    refine ⟨hstart, hle, hposition, hc, ?_, ?_, ?_⟩
    · -- The length that ends here is beyond all others.
      rw [hgiven]
      show Preferred m.greedy (fun n => offset + n ≤ a.position ∧ _) _
      refine hbest.add ?_ (fun n hn => by omega) hlazy
      intro n
      constructor
      · rintro ⟨hn, haccepts⟩
        rcases Nat.lt_or_eq_of_le hn with hn | hn
        · exact Or.inl ⟨hn, haccepts⟩
        · exact Or.inr (by omega)
      · rintro (⟨hn, haccepts⟩ | rfl)
        · exact ⟨Nat.le_of_lt hn, haccepts⟩
        · have hn : offset + (a.position - offset) = a.position := Nat.add_sub_cancel' hle
          exact ⟨Nat.le_of_eq hn, (hhere _ hn).2 haccept⟩
    · intro hgreedy halive
      exact absurd haccept (accept_not_mem_of_alive hgreedy halive)
    · intro hdead
      rcases states_eq_nil_of_dead hdead with hnil | ⟨hgreedy, -⟩
      · exact Or.inl hnil
      · exact Or.inr ⟨hgreedy, _, hgiven⟩
  · have hgiven : (a.withClosure m c).best = a.best := if_neg haccept
    refine ⟨hstart, hle, hposition, hc, ?_, ?_, ?_⟩
    · rw [hgiven]
      show Preferred m.greedy (fun n => offset + n ≤ a.position ∧ _) _
      apply hbest.congr
      intro n
      constructor
      · -- Nothing is accepted at the position itself.
        rintro ⟨hn, haccepts⟩
        refine ⟨Nat.lt_of_le_of_ne hn ?_, haccepts⟩
        intro heq
        exact haccept ((hhere n heq).1 haccepts)
      · rintro ⟨hn, haccepts⟩
        exact ⟨Nat.le_of_lt hn, haccepts⟩
    · intro hgreedy _
      rw [hgiven]
      exact hlazy hgreedy
    · intro hdead
      rcases states_eq_nil_of_dead hdead with hnil | ⟨-, hmem⟩
      · exact Or.inl hnil
      · exact absurd hmem haccept

/-! ## From the first element to the last -/

/-- The first element that is left, and what is left behind it. -/
theorem of_drop_eq_cons {i : Nat} {x : α} {rest : List α} (h : xs.drop i = x :: rest) :
    xs[i]? = some x ∧ xs.drop (i + 1) = rest := by
  constructor
  · rw [← List.head?_drop, h]
    rfl
  · rw [← List.tail_drop, h]
    rfl

theorem exists_begin_tracks (holds : π → α → Bool) (hm : m.automaton.Linked)
    (h : offset ≤ xs.length) :
    ∃ a, begin m (some xs.length) offset = .ok a ∧ a.Fits m ∧ a.position = offset ∧
      a.Tracks m holds xs offset := by
  obtain ⟨c, hc, hbegin, hfits⟩ := exists_refresh_fresh_eq_ok hm (some xs.length) offset
  refine ⟨_, hbegin, hfits, rfl, tracks_withClosure rfl (Nat.le_refl _) h ?_ ?_ fun _ => rfl⟩
  · intro q
    rw [Automaton.mem_closure_iff hc, position_fresh, Automaton.arrives_self_iff]
    simp
  · -- No length ends before the first position.
    apply Preferred.of_impossible
    rintro n ⟨hlt, -⟩
    have hlt : offset + n < offset := hlt
    omega

variable {P : Predicates π α μ ε}

/-- **One element.** The seeds are the states that read it; their closure holds the states
at which routes arrive behind it. -/
theorem ensures_advance_tracks (hm : m.automaton.Linked) (hP : P.Answers holds) {x : α}
    (h : a.Tracks m holds xs offset) (hfits : a.Fits m) (halive : a.alive = true)
    (hx : xs[a.position]? = some x) :
    (a.advance P m (some xs.length) x).Ensures (fun _ => False) fun a' =>
      a'.Tracks m holds xs offset ∧ a'.Fits m ∧ a'.position = a.position + 1 := by
  refine ensures_advance_of hm (Label.metWithin_of_answers hP) hfits halive
    fun seeds c hsound hcomplete hc hfits' => ?_
  have hlt : a.position < xs.length := by
    rw [List.getElem?_eq_some_iff] at hx
    exact hx.1
  refine ⟨?_, hfits', rfl⟩
  refine tracks_withClosure h.start_eq (Nat.le_succ_of_le h.le_position) hlt ?_ ?_
    fun hgreedy => h.best_eq_none hgreedy halive
  · intro q
    have hread : ∀ t, t ∈ seeds.toList ↔ ∃ source,
        m.automaton.Arrives holds xs m.automaton.start offset source a.position ∧
          m.automaton.Move holds xs source a.position t (a.position + 1) := by
      intro t
      rw [← Automaton.read_iff hx h.mem_active]
      exact ⟨hsound t, hcomplete t⟩
    rw [Automaton.mem_closure_iff hc, Automaton.arrives_succ_iff h.le_position]
    simp only [hread]
  · exact h.best.congr fun n => and_congr_left fun _ => Nat.lt_succ_iff

/-- **All elements that are left.** -/
theorem ensures_feed_tracks (hm : m.automaton.Linked) (hP : P.Answers holds) (ys : List α)
    (h : a.Tracks m holds xs offset) (hfits : a.Fits m) (hys : xs.drop a.position = ys) :
    (a.feed P m (some xs.length) ys).Ensures (fun _ => False) fun a' =>
      a'.Tracks m holds xs offset ∧ (a'.alive = true → a'.position = xs.length) := by
  induction ys generalizing a with
  | nil =>
    have hend : xs.length ≤ a.position := List.drop_eq_nil_iff.1 hys
    exact Run.ensures_pure ⟨h, fun _ => Nat.le_antisymm h.position_le hend⟩
  | cons y ys ih =>
    rw [feed]
    split
    · rename_i halive
      obtain ⟨hy, hrest⟩ := of_drop_eq_cons hys
      refine (ensures_advance_tracks hm hP h hfits halive hy).bind ?_
      rintro a' ⟨htracks, hfits', hposition⟩
      exact ih htracks hfits' (by rw [hposition, hrest])
    · rename_i hdead
      exact Run.ensures_pure ⟨h, fun halive => absurd halive hdead⟩

/-! ## When an attempt is over -/

/-- **No other length is left.** -/
theorem Tracks.preferred (h : a.Tracks m holds xs offset)
    (hend : a.alive = true → a.position = xs.length) :
    Preferred m.greedy (m.Accepts holds xs offset) a.best := by
  by_cases hlater : ∃ n, a.position < offset + n ∧ m.Accepts holds xs offset n
  · -- Some length ends behind the attempt, so the attempt is dead.
    obtain ⟨n, hn, haccepts⟩ := hlater
    have hdead : a.alive = false := by
      apply Bool.eq_false_iff.2
      intro halive
      obtain ⟨⟨k, hroute⟩, -⟩ := haccepts
      have hlength := hroute.le_length (Nat.le_trans h.le_position h.position_le)
      have := hend halive
      omega
    rcases h.dead hdead with hnil | ⟨hgreedy, shortest, hbest⟩
    · -- The route to a later position passes this one.
      obtain ⟨q, hq⟩ := haccepts.exists_before h.le_position hn
      have hmem := (h.mem_active q).2 hq
      rw [hnil] at hmem
      cases hmem
    · -- Short matches are preferred, and one was found before.
      obtain ⟨hle, hshortest⟩ := h.best.possible_of_some shortest hbest
      rw [hbest]
      apply Preferred.of_some hshortest
      intro k hk
      rw [hgreedy, if_neg Bool.false_ne_true]
      by_cases hle' : offset + k ≤ a.position
      · have hsmall := h.best.le_of_some shortest hbest k ⟨hle', hk⟩
        rw [hgreedy, if_neg Bool.false_ne_true] at hsmall
        exact hsmall
      · omega
  · -- No length ends behind the attempt.
    apply h.best.congr
    intro n
    constructor
    · intro haccepts
      exact ⟨Nat.le_of_not_lt fun hlt => hlater ⟨n, hlt, haccepts⟩, haccepts⟩
    · rintro ⟨-, haccepts⟩
      exact haccepts

end Attempt

namespace Matcher

/-- Whatever its automaton is, a matcher comes to the length that it prefers among those
that the automaton accepts. -/
theorem ensures_lengthAt_preferred {m : Matcher π} (hm : m.automaton.Linked)
    {P : Predicates π α μ ε} {holds : π → α → Bool} (hP : P.Answers holds) (xs : List α)
    {offset : Nat} (hoffset : offset ≤ xs.length) :
    (m.lengthAt P xs offset).Ensures (fun _ => False)
      (Preferred m.greedy (m.Accepts holds xs offset)) := by
  obtain ⟨a, hbegin, hfits, hposition, htracks⟩ := Attempt.exists_begin_tracks holds hm hoffset
  have hlast : offset + (xs.drop offset).length = xs.length := by
    rw [List.length_drop]
    exact Nat.add_sub_cancel' hoffset
  rw [lengthAt, if_pos hoffset, lengthAhead, Attempt.run, hlast, hbegin, Run.ofChecked_ok_bind]
  -- An attempt that is alive at last has read everything, so no length is left for later.
  refine (Attempt.ensures_feed_tracks hm hP _ htracks hfits (by rw [hposition])).bind ?_
  rintro a' ⟨htracks', hend⟩
  exact Run.ensures_pure (htracks'.preferred hend)

/-- What an automaton accepts is what the pattern spans. -/
theorem accepts_ofPattern_iff (p : Pattern π) (holds : π → α → Bool) (xs : List α)
    (offset n : Nat) :
    (ofPattern p).Accepts holds xs offset n ↔ p.Spans holds xs offset (offset + n) := by
  rw [← Automaton.reaches_accept_iff]
  refine ⟨fun h => h.1, fun h => ⟨h, .junction [], ?_, rfl⟩⟩
  have hexit := (Automaton.holds_ofPattern p).exit
  rw [Nat.zero_add] at hexit
  exact hexit

/-- **The preferred length.** If the answers of the predicates depend on the element alone,
the length at an offset is the one that the meaning of the pattern prefers there: none if
the pattern spans nothing from the offset on, the largest length that it spans if it is
greedy, and the smallest if it is not. -/
theorem exists_lengthAt_preferred (p : Pattern π) {P : Predicates π α μ ε}
    {holds : π → α → Bool} (hP : P.Answers holds) (xs : List α) {offset : Nat}
    (hoffset : offset ≤ xs.length) (env : Env π α μ) :
    ∃ best, (((ofPattern p).lengthAt P xs offset).outcome env).1 = .ok best ∧
      Preferred p.isGreedy (fun n => p.Spans holds xs offset (offset + n)) best := by
  have hlength := ensures_lengthAt_preferred (m := ofPattern p) (Automaton.linked_ofPattern p)
    hP xs hoffset
  obtain ⟨best, hbest, hpreferred⟩ := hlength.exists_ok env
  refine ⟨best, hbest, hpreferred.congr fun n => ?_⟩
  exact (accepts_ofPattern_iff p holds xs offset n).symm

/-- The theorem at an offset inside of three bits, for any number of ones. -/
theorem exists_lengthAt_preferred_star_ones :
    (Predicates.ofTest (fun _ b => b) : Predicates Unit Bool Unit Unit).Answers (fun _ b => b) ∧
      1 ≤ [true, true, false].length ∧
      ∃ best, (((ofPattern (Pattern.predicate ()).star).lengthAt
          (.ofTest (fun _ b => b) : Predicates Unit Bool Unit Unit)
          [true, true, false] 1).outcome ⟨(), #[], #[]⟩).1 = .ok best ∧
        Preferred true (fun n => (Pattern.predicate ()).star.Spans (fun _ b => b)
          [true, true, false] 1 (1 + n)) best :=
  ⟨Predicates.answers_ofTest _, by decide,
    exists_lengthAt_preferred (Pattern.predicate ()).star (Predicates.answers_ofTest _)
      [true, true, false] (by decide) ⟨(), #[], #[]⟩⟩

end Matcher

end Motif
