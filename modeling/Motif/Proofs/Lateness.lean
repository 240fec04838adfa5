/-
Two attempts side by side, one of which learns the length of the input at the end only.

Until the last element is consumed the two attempts are in the same states, except that one
may be alive where the other one is not (`Trails`). That happens where no state is active and
an anchor is undecided. The attempt that does not know the length reads one more element
there, to no effect, and from then on both are dead. What the two come to when the length is
told is settled already (`alike_toldAtEnd`); here it is put together with the way there.

Nothing is asked of the automaton but that its edges lead to states.
-/
import Motif.Proofs.Attempt

set_option autoImplicit false

namespace Motif

variable {π α μ ε : Type}

namespace Attempt

variable {m : Matcher π} {a : Attempt} {P : Predicates π α μ ε}

/-! ## Up to the last element -/

/-- The first attempt does not know the length of the input, the second one does, and both
have been given the same elements. -/
inductive Trails (u k : Attempt) : Prop where
  /-- They are in the same place, and all that is undecided is undecided for the first one
  alone. -/
  | together (h : k = u.decided)
  /-- Both are dead, and the first one has read more. -/
  | behind (hu : u.alive = false) (hk : k.alive = false) (hbest : u.best = k.best)
    (hposition : k.position < u.position)

theorem Trails.best_eq {u k : Attempt} (h : u.Trails k) : u.best = k.best := by
  cases h with
  | together h => rw [h, decided]
  | behind _ _ hbest _ => exact hbest

/-- In the same place they have found the same states. -/
theorem Trails.states_eq {u k : Attempt} (h : u.Trails k) (hposition : u.position = k.position) :
    u.seeds = k.seeds ∧ u.active = k.active := by
  cases h with
  | together h => rw [h]; exact ⟨rfl, rfl⟩
  | behind _ _ _ hlt => omega

/-- If only the first one is alive, then no state is active. -/
theorem Trails.active_eq_nil {u k : Attempt} (h : u.Trails k) (hk : k.alive = false)
    (hu : u.alive = true) : u.active.toList = [] := by
  cases h with
  | together h =>
    rw [h, decided, hu, Bool.true_and, StateSet.isEmpty_eq] at hk
    simpa using hk
  | behind hdead _ _ _ =>
    rw [hdead] at hu
    cases hu

/-- **Elements before the last one.** Two attempts that are in the same place do not part
before the end of the input. -/
theorem exists_feed_trails (hm : m.automaton.Linked) (hP : P.NeverPanics) {l : Nat}
    (xs : List α) (h : a.Fits m) (hl : a.position + xs.length < l) (env : Env π α μ) :
    ∃ u k after, (a.feed P m none xs).outcome env = (.ok u, after) ∧
      (a.decided.feed P m (some l) xs).outcome env = (.ok k, after) ∧ u.Trails k := by
  induction xs generalizing a env with
  | nil => exact ⟨a, a.decided, env, rfl, rfl, .together rfl⟩
  | cons x xs ih =>
    cases halive : a.alive with
    | false =>
      rw [feed_of_dead P m none _ halive,
        feed_of_dead P m (some l) _ (alive_decided_of_dead halive)]
      exact ⟨a, a.decided, env, rfl, rfl, .together rfl⟩
    | true =>
      by_cases hactive : a.active.toList = []
      · -- The attempt that knows the length is dead. The other one reads the element, and dies.
        have hdecided := alive_decided_of_active_nil hactive
        obtain ⟨a', hadvance, hdead, hbest, hposition⟩ :=
          advance_of_active_nil P m x h.start_le halive hactive
        have hbehind : a'.Trails a.decided := by
          refine .behind hdead hdecided hbest ?_
          rw [hposition]
          exact Nat.lt_succ_self _
        rw [feed_of_dead P m (some l) _ hdecided, feed, if_pos halive, hadvance, pure_bind,
          feed_of_dead P m none _ hdead]
        exact ⟨a', a.decided, env, rfl, rfl, hbehind⟩
      · -- The attempts are the same, and they read the same element.
        have hstep := m.automaton.ensures_step (Label.metWithin_all (x := x) hP) h.active_lt
        obtain ⟨seeds, between, hseeds, hread, -⟩ := hstep.exists_outcome env
        obtain ⟨c, -, hrefresh, hfits⟩ := exists_refresh_eq_ok (m := m)
          (a := { a with seeds, position := a.position + 1 }) hm
          (fun q hq => hm.lt_of_read (hread q hq)) (Nat.le_succ_of_le h.start_le)
          (fun n hn => Nat.le_succ_of_le (h.best_le n hn)) none
        -- It is not the last one, so the closure comes out the same but for what is undecided.
        have hne : l ≠ a.position + 1 := by
          rw [List.length_cons] at hl
          omega
        have hknown := refresh_some_of_ne (m := m)
          (a := { a with seeds, position := a.position + 1 }) hne
        rw [hrefresh] at hknown
        have hleft : (a.advance P m none x).outcome env =
            (.ok (withClosure m c { a with seeds, position := a.position + 1 }), between) := by
          rw [advance_of_alive halive, Run.outcome_bind_of_ok hseeds, hrefresh]
          rfl
        have hright : (a.advance P m (some l) x).outcome env =
            (.ok (withClosure m c { a with seeds, position := a.position + 1 }).decided,
              between) := by
          rw [advance_of_alive halive, Run.outcome_bind_of_ok hseeds, hknown]
          rfl
        rw [decided_of_active halive hactive, feed, feed, if_pos halive, if_pos halive,
          Run.outcome_bind_of_ok hleft, Run.outcome_bind_of_ok hright]
        refine ih hfits ?_ between
        change a.position + 1 + xs.length < l
        rw [List.length_cons] at hl
        omega

/-- **A run of both attempts** up to a position before the end. -/
theorem exists_run_trails (hm : m.automaton.Linked) (hP : P.NeverPanics) {start l : Nat}
    (xs : List α) (hl : start + xs.length < l) (env : Env π α μ) :
    ∃ u k after, (run P m none start xs).outcome env = (.ok u, after) ∧
      (run P m (some l) start xs).outcome env = (.ok k, after) ∧ u.Trails k := by
  obtain ⟨a, hbegin, hfits, -, hposition⟩ := exists_begin_eq_ok hm none start
  have hne : l ≠ start := by omega
  rw [run, run, hbegin, begin_some_of_ne hne hbegin, Run.ofChecked_ok_bind, Run.ofChecked_ok_bind]
  exact exists_feed_trails hm hP xs hfits (by rw [hposition]; exact hl) env

/-! ## To the end -/

/-- An attempt that is told the length at the end comes to what the other one comes to. -/
theorem exists_run_conclude (hm : m.automaton.Linked) (hP : P.NeverPanics) (start : Nat)
    (ahead : List α) (env : Env π α μ) :
    ∃ u told known after, (run P m none start ahead).outcome env = (.ok u, after) ∧
      u.conclude m (start + ahead.length) = .ok told ∧
      (run P m (some (start + ahead.length)) start ahead).outcome env = (.ok known, after) ∧
      told.best = known.best := by
  obtain ⟨u, after, hu, hfits, -, -, hposition⟩ :=
    (ensures_run hm hP none start ahead).exists_outcome env
  obtain ⟨known, after', hknown, -⟩ :=
    (ensures_run hm hP (some (start + ahead.length)) start ahead).exists_outcome env
  obtain ⟨told, htold, -⟩ := exists_conclude_eq_ok hm hfits hposition
  have htoldBest : (run P m none start ahead >>= fun a => do
      let a ← Run.ofChecked (a.conclude m (start + ahead.length))
      return a.best).outcome env = (.ok told.best, after) := by
    rw [Run.outcome_bind_of_ok hu, htold]
    rfl
  have hknownBest : (m.lengthAhead P start ahead).outcome env = (.ok known.best, after') := by
    rw [Matcher.lengthAhead, Run.outcome_bind_of_ok hknown]
    rfl
  -- To be told is to consume what is ahead and then to conclude.
  have hsame := alike_toldAtEnd hm (P := P) (R := Eq) (fun handle x => Run.alike_eq _) start ahead
    env env rfl
  rw [run, bind_assoc] at htoldBest
  rw [hknownBest] at hsame
  have hbest : Except.ok told.best = Except.ok known.best :=
    (congrArg Prod.fst htoldBest).symm.trans hsame.1
  have hafter : after = after' := (congrArg Prod.snd htoldBest).symm.trans hsame.2
  subst hafter
  exact ⟨u, told, known, after, hu, htold, hknown, Except.ok.inj hbest⟩

/-- **The length may be learnt at the end.** Let the edges of an automaton lead to states, and
let no predicate panic. One attempt at an offset does not know the length of the input until it
has read what it wants to, the other one knows it from the beginning. They make the same
evaluations and come to the same best length. Before the end, they have the same best length
after the same elements, and where both have read all of these they have the same states in
the same order. If the one that knows the length is dead there while the other one is alive,
then no state is active, and the next element ends the other one without an evaluation and
without a change of the best length. -/
theorem exists_conclude_agrees (hm : m.automaton.Linked) (hP : P.NeverPanics) (xs : List α)
    {offset : Nat} (hoffset : offset ≤ xs.length) (env : Env π α μ) :
    (∃ u told known after,
      (run P m none offset (xs.drop offset)).outcome env = (.ok u, after) ∧
      u.conclude m xs.length = .ok told ∧
      (run P m (some xs.length) offset (xs.drop offset)).outcome env = (.ok known, after) ∧
      told.best = known.best) ∧
    ∀ n, offset + n < xs.length → ∃ u k after,
      (run P m none offset ((xs.drop offset).take n)).outcome env = (.ok u, after) ∧
      (run P m (some xs.length) offset ((xs.drop offset).take n)).outcome env = (.ok k, after) ∧
      u.best = k.best ∧
      (u.position = offset + n → k.position = offset + n →
        u.seeds = k.seeds ∧ u.active = k.active) ∧
      (k.alive = false → u.alive = true → u.active.toList = [] ∧
        ∀ x, ∃ u', (u.advance P m none x).outcome after = (.ok u', after) ∧
          u'.best = u.best ∧ u'.alive = false) := by
  constructor
  · have hlength : offset + (xs.drop offset).length = xs.length := by
      rw [List.length_drop]
      omega
    have hrun := exists_run_conclude hm hP offset (xs.drop offset) env
    rwa [hlength] at hrun
  · intro n hn
    have hlength : offset + ((xs.drop offset).take n).length < xs.length := by
      rw [List.length_take, List.length_drop]
      omega
    obtain ⟨u, k, after, hu, hk, htrails⟩ := exists_run_trails hm hP _ hlength env
    obtain ⟨u', after', hu', hfits, -⟩ :=
      (ensures_run hm hP none offset ((xs.drop offset).take n)).exists_outcome env
    rw [hu] at hu'
    cases hu'
    refine ⟨u, k, after, hu, hk, htrails.best_eq, ?_, ?_⟩
    · intro hposition hposition'
      exact htrails.states_eq (hposition.trans hposition'.symm)
    · intro hdead halive
      -- The late one is alive for the sake of a deferred closure alone.
      have hactive := htrails.active_eq_nil hdead halive
      refine ⟨hactive, fun x => ?_⟩
      obtain ⟨u', hadvance, hdead', hbest, -⟩ :=
        advance_of_active_nil P m x hfits.start_le halive hactive
      rw [hadvance]
      exact ⟨u', rfl, hbest, hdead'⟩

/-- A gate that opens at the end of the input, and nothing else to begin with. No pattern has
this automaton, because state 2 is cut off. -/
def waitingGate : Automaton Unit where
  states := #[.gate .atEnd 1, .junction [], .reader .any 0]
  start := 0
  accept := 1

theorem linked_waitingGate : waitingGate.Linked := by
  have hstates : ∀ q state, waitingGate.state? q = some state →
      state = .gate .atEnd 1 ∨ state = .junction [] ∨ state = .reader .any 0 := by
    intro q state hq
    have hmem : state ∈ waitingGate.states := Array.mem_of_getElem? hq
    simpa [waitingGate] using hmem
  refine ⟨by decide, fun q state hq t ht => ?_, fun q state hq edge hedge => ?_⟩
  · change t < 3
    rcases hstates q state hq with rfl | rfl | rfl <;>
      simp [State.gate, State.junction, State.reader] at ht
    omega
  · change edge.2 < 3
    rcases hstates q state hq with rfl | rfl | rfl <;>
      simp [State.gate, State.junction, State.reader] at hedge
    rw [hedge]
    decide

/-- In front of an element the gate is shut for the attempt that knows the length. The other
one waits, and dies of the element. -/
theorem exists_conclude_agrees_waitingGate :
    waitingGate.Linked ∧
      (Predicates.ofTest (fun _ b => b) : Predicates Unit Bool Unit Unit).NeverPanics ∧
      0 ≤ [true].length ∧ 0 + 0 < [true].length ∧
      ∃ u k after u',
        (run (.ofTest fun _ b => b : Predicates Unit Bool Unit Unit) ⟨waitingGate, true⟩ none 0
          []).outcome ⟨(), #[], #[]⟩ = (.ok u, after) ∧
        (run (.ofTest fun _ b => b : Predicates Unit Bool Unit Unit) ⟨waitingGate, true⟩ (some 1) 0
          []).outcome ⟨(), #[], #[]⟩ = (.ok k, after) ∧
        u.alive = true ∧ k.alive = false ∧ u.active.toList = [] ∧
        (u.advance (.ofTest fun _ b => b : Predicates Unit Bool Unit Unit) ⟨waitingGate, true⟩ none
          true).outcome after = (.ok u', after) ∧ u'.alive = false := by
  have hnever := (Predicates.answers_ofTest (μ := Unit) (ε := Unit)
    (fun (_ : Unit) (b : Bool) => b)).neverPanics
  obtain ⟨-, hbefore⟩ := exists_conclude_agrees (m := ⟨waitingGate, true⟩) linked_waitingGate hnever
    [true] (show 0 ≤ [true].length from Nat.zero_le _) ⟨(), #[], #[]⟩
  obtain ⟨u, k, after, hu, hk, -, -, hwaits⟩ := hbefore 0 (by decide)
  have halive : ((run (.ofTest fun _ b => b : Predicates Unit Bool Unit Unit) ⟨waitingGate, true⟩
      none 0 []).outcome ⟨(), #[], #[]⟩).1.toOption.map Attempt.alive = some true := by
    decide +kernel
  have hdead : ((run (.ofTest fun _ b => b : Predicates Unit Bool Unit Unit) ⟨waitingGate, true⟩
      (some 1) 0 []).outcome ⟨(), #[], #[]⟩).1.toOption.map Attempt.alive = some false := by
    decide +kernel
  have halive' : u.alive = true := by
    have hresult := congrArg (fun r => r.1.toOption.map Attempt.alive) hu
    exact Option.some.inj (hresult.symm.trans halive)
  have hdead' : k.alive = false := by
    have hresult := congrArg (fun r => r.1.toOption.map Attempt.alive) hk
    exact Option.some.inj (hresult.symm.trans hdead)
  obtain ⟨hactive, hnext⟩ := hwaits hdead' halive'
  obtain ⟨u', hadvance, -, hended⟩ := hnext true
  exact ⟨linked_waitingGate, hnever, Nat.zero_le _, by decide, u, k, after, u', hu, hk, halive',
    hdead', hactive, hadvance, hended⟩

end Attempt

end Motif
