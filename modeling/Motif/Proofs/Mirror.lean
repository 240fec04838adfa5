/-
Matchers that do the same.

Let the automata of two matchers do the same and let both prefer long matches, or both
short ones. Then attempts of these matchers that begin in the same place stay in the same
place: they are in corresponding states, claim the same length, and are alive as long as
each other (`Attempt.Mirrors`). Nothing that an attempt looks at tells the automata apart,
neither while it reads nor when it is told the length.

A search and a scanner see no more of the automaton than what their attempts come to. So
two searches find the same, and two scanners return the same at every call
(`Matcher.Mirrors.corresponds_replies`).

The predicates have to answer by the element alone. The automata ask them in different
orders, and what an answer depends on must not depend on that.
-/
import Motif.Proofs.Attempt
import Motif.Proofs.Bisimulation
import Motif.Proofs.Calls
import Motif.Proofs.Search

set_option autoImplicit false

namespace Motif

variable {π α μ ε : Type}

open Automaton

/-- The automata of the matchers do the same, and the matchers prefer the same. -/
structure Matcher.Mirrors (R : Nat → Nat → Prop) (m m' : Matcher π) : Prop where
  linked : m.automaton.Linked
  linked' : m'.automaton.Linked
  bisimulation : Bisimulation R m.automaton m'.automaton
  greedy_eq : m.greedy = m'.greedy

/-! ## Attempts -/

namespace Attempt

/-- The attempts differ in nothing but the states that they are in, and these correspond. -/
structure Mirrors (R : Nat → Nat → Prop) (a a' : Attempt) : Prop where
  start_eq : a.start = a'.start
  position_eq : a.position = a'.position
  best_eq : a.best = a'.best
  alive_eq : a.alive = a'.alive
  /-- Neither attempt went backwards. -/
  start_le : a.start ≤ a.position
  seeds : Matched R a.seeds.toList a'.seeds.toList
  active : Matched R a.active.toList a'.active.toList

section Mirrors

variable {R : Nat → Nat → Prop} {m m' : Matcher π} {a a' : Attempt} {P : Predicates π α μ ε}
  {holds : π → α → Bool}

theorem Mirrors.giveUp (h : a.Mirrors R a') : a.giveUp.Mirrors R a'.giveUp :=
  ⟨h.start_eq, h.position_eq, h.best_eq, rfl, h.start_le, h.seeds, h.active⟩

/-- Closures that correspond have the same effect on the attempts. -/
theorem Mirrors.withClosure (hm : m.Mirrors R m') (h : a.Mirrors R a') {c c' : Closure}
    (hstates : Matched R c.states.toList c'.states.toList) (hdeferred : c.deferred = c'.deferred) :
    (a.withClosure m c).Mirrors R (a'.withClosure m' c') := by
  have haccept := hm.bisimulation.accept_mem_iff hstates
  have hcontains : c.states.contains m.automaton.accept =
      c'.states.contains m'.automaton.accept := by
    rw [Bool.eq_iff_iff, StateSet.contains_iff, StateSet.contains_iff]
    exact haccept
  have hempty : c.states.isEmpty = c'.states.isEmpty := by
    rw [Bool.eq_iff_iff, StateSet.isEmpty_eq, StateSet.isEmpty_eq, List.isEmpty_iff,
      List.isEmpty_iff]
    exact hstates.eq_nil_iff
  refine ⟨h.start_eq, h.position_eq, ?_, ?_, h.start_le, h.seeds, hstates⟩
  · change a.bestGiven m c = a'.bestGiven m' c'
    simp only [bestGiven, h.start_eq, h.position_eq, h.best_eq, haccept]
  · change (if c.states.contains m.automaton.accept && !m.greedy then false
        else !c.states.isEmpty || c.deferred) =
      if c'.states.contains m'.automaton.accept && !m'.greedy then false
        else !c'.states.isEmpty || c'.deferred
    rw [hcontains, hempty, hdeferred, hm.greedy_eq]

/-- **Bringing the closures up to date.** -/
theorem Mirrors.exists_refresh (hm : m.Mirrors R m') (h : a.Mirrors R a')
    (length : Option Nat) :
    ∃ b b', a.refresh m length = .ok b ∧ a'.refresh m' length = .ok b' ∧ b.Mirrors R b' := by
  obtain ⟨c, hc⟩ := exists_closure_eq_ok hm.linked (hm.bisimulation.lt_size h.seeds.1)
    a.position length
  obtain ⟨c', hc'⟩ := exists_closure_eq_ok hm.linked' (hm.bisimulation.symm.lt_size h.seeds.2)
    a.position length
  have hstates := hm.bisimulation.matched_closure h.seeds hc hc'
  have hdeferred := hm.bisimulation.deferred_eq h.seeds hc hc'
  have hstart' : a'.start ≤ a'.position := by
    rw [← h.start_eq, ← h.position_eq]
    exact h.start_le
  rw [h.position_eq] at hc'
  exact ⟨_, _, refresh_of_closure h.start_le hc, refresh_of_closure hstart' hc',
    h.withClosure hm hstates hdeferred⟩

theorem exists_begin_mirrors (hm : m.Mirrors R m') (length : Option Nat) (start : Nat) :
    ∃ a a', begin m length start = .ok a ∧ begin m' length start = .ok a' ∧ a.Mirrors R a' := by
  have hseeds : Matched R (fresh m start).seeds.toList (fresh m' start).seeds.toList := by
    simp [Matched, Covered, flip, hm.bisimulation.start]
  have hactive : Matched R (∅ : StateSet).toList (∅ : StateSet).toList := by
    simp [Matched, Covered]
  have hnew : (fresh m start).Mirrors R (fresh m' start) :=
    ⟨rfl, rfl, rfl, rfl, Nat.le_refl start, hseeds, hactive⟩
  exact hnew.exists_refresh hm length

/-- **One element.** Corresponding states read it to corresponding states. -/
theorem Mirrors.corresponds_advance (hm : m.Mirrors R m') (hP : P.Answers holds)
    (h : a.Mirrors R a') (length : Option Nat) (x : α) :
    (a.advance P m length x).Corresponds (Mirrors R) (a'.advance P m' length x) := by
  by_cases halive : a.alive = true
  · rw [advance_of_alive halive, advance_of_alive (h.alive_eq ▸ halive)]
    have hstep := m.automaton.ensures_step (Label.metWithin_of_answers (x := x) hP)
      (hm.bisimulation.lt_size h.active.1)
    have hstep' := m'.automaton.ensures_step (Label.metWithin_of_answers (x := x) hP)
      (hm.bisimulation.symm.lt_size h.active.2)
    refine (hstep.corresponds hstep').bind ?_
    rintro seeds seeds' ⟨⟨hsound, hcomplete⟩, hsound', hcomplete'⟩
    have hseeds : Matched R seeds.toList seeds'.toList :=
      hm.bisimulation.matched_seeds h.active (fun t => ⟨hsound t, hcomplete t⟩)
        fun t => ⟨hsound' t, hcomplete' t⟩
    have hread : Mirrors R { a with seeds, position := a.position + 1 }
        { a' with seeds := seeds', position := a'.position + 1 } :=
      ⟨h.start_eq, congrArg (· + 1) h.position_eq, h.best_eq, h.alive_eq,
        Nat.le_succ_of_le h.start_le, hseeds, h.active⟩
    obtain ⟨b, b', hb, hb', hmirrors⟩ := hread.exists_refresh hm length
    rw [hb, hb']
    exact Run.corresponds_pure hmirrors
  · rw [advance, advance, if_neg halive, if_neg (h.alive_eq ▸ halive)]
    exact Run.corresponds_fail _

theorem Mirrors.corresponds_feed (hm : m.Mirrors R m') (hP : P.Answers holds)
    (h : a.Mirrors R a') (length : Option Nat) (xs : List α) :
    (a.feed P m length xs).Corresponds (Mirrors R) (a'.feed P m' length xs) := by
  induction xs generalizing a a' with
  | nil => exact Run.corresponds_pure h
  | cons x xs ih =>
    rw [feed, feed, ← h.alive_eq]
    split
    · exact (h.corresponds_advance hm hP length x).bind fun b b' hb => ih hb
    · exact Run.corresponds_pure h

/-- **A run of an attempt.** -/
theorem corresponds_run (hm : m.Mirrors R m') (hP : P.Answers holds) (length : Option Nat)
    (start : Nat) (ahead : List α) :
    (run P m length start ahead).Corresponds (Mirrors R) (run P m' length start ahead) := by
  obtain ⟨a, a', hbegin, hbegin', h⟩ := exists_begin_mirrors hm length start
  rw [run, run, hbegin, hbegin']
  exact h.corresponds_feed hm hP length ahead

/-- The end of the input decides the same for both attempts. -/
theorem Mirrors.corresponds_conclude (hm : m.Mirrors R m') (h : a.Mirrors R a') (length : Nat) :
    (Run.ofChecked (a.conclude m length) : Run π α μ ε Attempt).Corresponds (Mirrors R)
      (Run.ofChecked (a'.conclude m' length)) := by
  unfold conclude
  rw [← h.alive_eq, ← h.position_eq]
  split
  · split
    · obtain ⟨b, b', hb, hb', hmirrors⟩ := h.exists_refresh hm (some length)
      rw [hb, hb']
      exact Run.corresponds_pure hmirrors.giveUp
    · exact Run.corresponds_fail _
  · exact Run.corresponds_pure h.giveUp

end Mirrors

end Attempt

/-! ## Searches -/

section Search

variable {R : Nat → Nat → Prop} {m m' : Matcher π} {P : Predicates π α μ ε}
  {holds : π → α → Bool}

theorem Matcher.Mirrors.corresponds_lengthAhead (hm : m.Mirrors R m') (hP : P.Answers holds)
    (position : Nat) (ahead : List α) :
    (m.lengthAhead P position ahead).Corresponds Eq (m'.lengthAhead P position ahead) :=
  (Attempt.corresponds_run hm hP _ position ahead).bind fun _ _ h => Run.corresponds_pure h.best_eq

/-- Searches in the same place find the same. -/
theorem Search.corresponds_all (hm : m.Mirrors R m') (hP : P.Answers holds) (position : Nat)
    (ahead : List α) :
    ((⟨position, ahead⟩ : Search m α).all P).Corresponds Eq
      ((⟨position, ahead⟩ : Search m' α).all P) := by
  by_cases h : ahead = []
  · rw [all_of_ahead_eq_nil P h, all_of_ahead_eq_nil P h]
    exact Run.corresponds_pure rfl
  · rw [all_of_ahead_ne_nil h, all_of_ahead_ne_nil h]
    refine (hm.corresponds_lengthAhead hP position ahead).bind ?_
    rintro best _ rfl
    refine (Run.corresponds_ofChecked _).bind ?_
    rintro taken _ rfl
    refine (corresponds_all hm hP _ _).bind ?_
    rintro rest _ rfl
    exact Run.corresponds_pure rfl
termination_by ahead.length
decreasing_by exact length_past_lt (s := (⟨position, ahead⟩ : Search m α)) h best

end Search

/-! ## Scanners -/

namespace Scanner

/-- The scanners differ in nothing but the states that their attempts are in. -/
structure Mirrors (R : Nat → Nat → Prop) {m m' : Matcher π} (s : Scanner m α)
    (s' : Scanner m' α) : Prop where
  position_eq : s.position = s'.position
  start_eq : s.start = s'.start
  origin_eq : s.origin = s'.origin
  buffer_eq : s.buffer = s'.buffer
  attempt : s.attempt.Mirrors R s'.attempt
  ended_eq : s.ended = s'.ended

section Mirrors

variable {R : Nat → Nat → Prop} {m m' : Matcher π} {s : Scanner m α} {s' : Scanner m' α}
  {P : Predicates π α μ ε} {holds : π → α → Bool}

theorem Mirrors.passed_eq (h : s.Mirrors R s') : s.passed = s'.passed := by
  rw [passed, passed, h.origin_eq, h.start_eq, h.buffer_eq]

theorem Mirrors.keptPast_eq (h : s.Mirrors R s') (n : Nat) : s.keptPast n = s'.keptPast n := by
  rw [keptPast, keptPast, h.buffer_eq]

theorem Mirrors.ahead_eq (h : s.Mirrors R s') : s.ahead = s'.ahead := by
  rw [ahead, ahead, h.passed_eq]
  exact congrArg _ (funext fun n => by rw [h.keptPast_eq])

/-- Forgetting does not depend on the attempt. -/
theorem Mirrors.corresponds_trim (h : s.Mirrors R s') :
    (Run.ofChecked s.trim : Run π α μ ε (Scanner m α)).Corresponds (Mirrors R)
      (Run.ofChecked s'.trim) := by
  rw [trim, trim, ← h.passed_eq]
  cases s.passed with
  | error cause => exact Run.corresponds_fail cause
  | ok n =>
    exact Run.corresponds_pure
      ⟨h.position_eq, h.start_eq, h.start_eq, h.keptPast_eq n, h.attempt, h.ended_eq⟩

theorem Mirrors.corresponds_emit (h : s.Mirrors R s') :
    (s.emit : Run π α μ ε (Option (Match α))).Corresponds Eq s'.emit := by
  unfold emit
  rw [← h.attempt.start_eq, ← h.start_eq, ← h.ahead_eq, ← h.attempt.best_eq]
  split
  · exact (Run.corresponds_fail (S := fun _ _ => False) _).bind fun _ _ hfalse => hfalse.elim
  · refine (Run.corresponds_ofChecked _).bind ?_
    rintro elements _ rfl
    refine (Run.corresponds_ofChecked _).bind ?_
    rintro taken _ rfl
    cases taken with
    | none => exact Run.corresponds_pure rfl
    | some found =>
      exact (Run.corresponds_report _).bind fun _ _ _ => Run.corresponds_pure rfl

theorem Mirrors.past (h : s.Mirrors R s') : s.past.Mirrors R s'.past := by
  refine ⟨h.position_eq, ?_, h.origin_eq, h.buffer_eq, h.attempt, h.ended_eq⟩
  change s.start + stride s.attempt.best = s'.start + stride s'.attempt.best
  rw [h.start_eq, h.attempt.best_eq]

theorem Mirrors.corresponds_catchUp (hm : m.Mirrors R m') (hP : P.Answers holds)
    (h : s.Mirrors R s') (length : Option Nat) :
    (s.catchUp P length).Corresponds (Attempt.Mirrors R) (s'.catchUp P length) := by
  unfold catchUp
  rw [← h.start_eq, ← h.position_eq, ← h.ahead_eq]
  refine (Run.corresponds_ofChecked _).bind ?_
  rintro replayed _ rfl
  refine (Run.corresponds_report _).bind ?_
  rintro _ _ -
  refine (Run.corresponds_ofChecked _).bind ?_
  rintro elements _ rfl
  refine (Attempt.corresponds_run hm hP length s.start elements).bind ?_
  intro a a' ha
  refine Run.corresponds_pure ?_
  split
  · exact ha.giveUp
  · exact ha

/-- What a call returns is the same, and the scanners stay in step. -/
def InStep (R : Nat → Nat → Prop) {m m' : Matcher π} {β : Type} (r : β × Scanner m α)
    (r' : β × Scanner m' α) : Prop := r.1 = r'.1 ∧ r.2.Mirrors R r'.2

/-- **The loop of replacements.** Dead attempts are replaced at the same time, after the
same match. -/
theorem Mirrors.corresponds_replaceDead (hm : m.Mirrors R m') (hP : P.Answers holds)
    (h : s.Mirrors R s') (length : Option Nat) :
    (s.replaceDead P length).Corresponds (InStep R) (s'.replaceDead P length) := by
  fun_induction replaceDead P length s generalizing s' with
  | case1 s halive =>
    rw [replaceDead, if_pos (h.attempt.alive_eq ▸ halive)]
    exact Run.corresponds_pure ⟨rfl, h⟩
  | case2 s hdead hle =>
    have hle' : s'.position ≤ s'.start := by
      rw [← h.position_eq, ← h.start_eq]
      exact hle
    rw [replaceDead, if_neg (h.attempt.alive_eq ▸ hdead), dif_pos hle']
    exact Run.corresponds_pure ⟨rfl, h⟩
  | case3 s hdead hle ih =>
    have hle' : ¬ s'.position ≤ s'.start := by
      rw [← h.position_eq, ← h.start_eq]
      exact hle
    rw [replaceDead.eq_def P length s', if_neg (h.attempt.alive_eq ▸ hdead), dif_neg hle']
    refine h.corresponds_emit.bind ?_
    rintro taken _ rfl
    refine (h.past.corresponds_catchUp hm hP length).bind ?_
    intro attempt attempt' hattempt
    have hnext : ({ s.past with attempt } : Scanner m α).Mirrors R
        ({ s'.past with attempt := attempt' } : Scanner m' α) :=
      ⟨h.past.position_eq, h.past.start_eq, h.past.origin_eq, h.past.buffer_eq, hattempt,
        h.past.ended_eq⟩
    refine (ih attempt hnext).bind ?_
    rintro ⟨later, t⟩ ⟨_, t'⟩ ⟨rfl, ht⟩
    exact Run.corresponds_pure ⟨rfl, ht⟩

theorem Mirrors.corresponds_moveOn (hm : m.Mirrors R m') (hP : P.Answers holds)
    (h : s.Mirrors R s') (length : Option Nat) :
    (s.moveOn P length).Corresponds (InStep R) (s'.moveOn P length) := by
  refine (h.corresponds_replaceDead hm hP length).bind ?_
  rintro ⟨found, t⟩ ⟨_, t'⟩ ⟨rfl, ht⟩
  refine ht.corresponds_trim.bind ?_
  intro u u' hu
  exact Run.corresponds_pure ⟨rfl, hu⟩

/-- **A push.** -/
theorem Mirrors.corresponds_push (hm : m.Mirrors R m') (hP : P.Answers holds)
    (h : s.Mirrors R s') (x : α) :
    (s.push P x).Corresponds (InStep R) (s'.push P x) := by
  by_cases hended : s.ended = true
  · rw [push, push, if_pos hended, if_pos (h.ended_eq ▸ hended)]
    exact (Run.corresponds_report _).bind fun _ _ _ => Run.corresponds_pure ⟨rfl, h⟩
  · have hopen : s.ended = false := Bool.eq_false_iff.2 hended
    rw [push_eq P x hopen, push_eq P x (h.ended_eq ▸ hopen)]
    refine (h.attempt.corresponds_feed hm hP none [x]).bind ?_
    intro a a' ha
    have hnext : ({ s.receive x with attempt := a } : Scanner m α).Mirrors R
        ({ s'.receive x with attempt := a' } : Scanner m' α) :=
      ⟨congrArg (· + 1) h.position_eq, h.start_eq, h.origin_eq, congrArg (·.push x) h.buffer_eq,
        ha, h.ended_eq⟩
    exact hnext.corresponds_moveOn hm hP none

/-- **The end.** -/
theorem Mirrors.corresponds_close (hm : m.Mirrors R m') (hP : P.Answers holds)
    (h : s.Mirrors R s') : (s.close P).Corresponds (InStep R) (s'.close P) := by
  by_cases hended : s.ended = true
  · rw [close, close, if_pos hended, if_pos (h.ended_eq ▸ hended)]
    exact (Run.corresponds_report _).bind fun _ _ _ => Run.corresponds_pure ⟨rfl, h⟩
  · -- The lengths that the scanners are told are the same.
    have hlength : some s'.position = some s.position := congrArg some h.position_eq.symm
    rw [close, close, if_neg hended, if_neg (h.ended_eq ▸ hended), hlength]
    refine Run.Corresponds.bind (S := Attempt.Mirrors R) ?_ ?_
    · rw [← h.position_eq]
      exact h.attempt.corresponds_conclude hm s.position
    · intro a a' ha
      have hnext : ({ s with attempt := a, ended := true } : Scanner m α).Mirrors R
          ({ s' with attempt := a', ended := true } : Scanner m' α) :=
        ⟨h.position_eq, h.start_eq, h.origin_eq, h.buffer_eq, ha, rfl⟩
      exact hnext.corresponds_moveOn hm hP (some s.position)

theorem Mirrors.corresponds_call (hm : m.Mirrors R m') (hP : P.Answers holds)
    (h : s.Mirrors R s') (c : Call α) : (s.call P c).Corresponds (InStep R) (s'.call P c) := by
  cases c with
  | push x => exact h.corresponds_push hm hP x
  | close => exact h.corresponds_close hm hP

end Mirrors

/-- Makes calls one after the other and returns the matches of each of them. -/
def eachCall {m : Matcher π} (P : Predicates π α μ ε) :
    List (Call α) → Scanner m α → Run π α μ ε (List (List (Match α)))
  | [], _ => pure []
  | c :: cs, s => do
    let (found, s) ← s.call P c
    let later ← eachCall P cs s
    return found :: later

section EachCall

variable {R : Nat → Nat → Prop} {m m' : Matcher π} {s : Scanner m α} {s' : Scanner m' α}
  {P : Predicates π α μ ε} {holds : π → α → Bool}

/-- **Any calls.** The scanners stay in step from one call to the next. -/
theorem Mirrors.corresponds_eachCall (hm : m.Mirrors R m') (hP : P.Answers holds)
    (h : s.Mirrors R s') (cs : List (Call α)) :
    (s.eachCall P cs).Corresponds Eq (s'.eachCall P cs) := by
  induction cs generalizing s s' with
  | nil => exact Run.corresponds_pure rfl
  | cons c cs ih =>
    refine (h.corresponds_call hm hP c).bind ?_
    rintro ⟨found, t⟩ ⟨_, t'⟩ ⟨rfl, ht⟩
    refine (ih ht).bind ?_
    rintro later _ rfl
    exact Run.corresponds_pure rfl

/-- Every call on a scanner at rest returns. -/
theorem ensures_eachCall {may : ε → Prop} (hm : m.automaton.Linked) (hP : P.PanicsOnly may)
    (h : AtRest P s) (cs : List (Call α)) :
    (s.eachCall P cs).Ensures may fun found => found.length = cs.length := by
  induction cs generalizing s with
  | nil => exact Run.ensures_pure rfl
  | cons c cs ih =>
    refine (ensures_call hm hP h c).bind ?_
    rintro ⟨found, t⟩ hhandled
    refine (ih hhandled.rest).bind ?_
    intro later hlater
    exact Run.ensures_pure (congrArg (· + 1) hlater)

end EachCall

end Scanner

/-! ## Matchers -/

namespace Matcher

/-- The matches that each of some calls on a new scanner returns. -/
def replies (m : Matcher π) (P : Predicates π α μ ε) (cs : List (Call α)) :
    Run π α μ ε (List (List (Match α))) := do
  let s ← m.scanner
  s.eachCall P cs

variable {R : Nat → Nat → Prop} {m m' : Matcher π} {P : Predicates π α μ ε}
  {holds : π → α → Bool}

/-- **Scanners of matchers that do the same return the same at every call.** -/
theorem Mirrors.corresponds_replies (hm : m.Mirrors R m') (hP : P.Answers holds)
    (cs : List (Call α)) : (m.replies P cs).Corresponds Eq (m'.replies P cs) := by
  obtain ⟨a, a', hbegin, hbegin', ha⟩ := Attempt.exists_begin_mirrors hm none 0
  have hnew : (⟨0, 0, 0, #[], a, false⟩ : Scanner m α).Mirrors R
      (⟨0, 0, 0, #[], a', false⟩ : Scanner m' α) := ⟨rfl, rfl, rfl, rfl, ha, rfl⟩
  rw [replies, replies, scanner, scanner, Scanner.begin, Scanner.begin, hbegin, hbegin']
  exact hnew.corresponds_eachCall hm hP cs

/-- Every call returns. -/
theorem ensures_replies {may : ε → Prop} (hm : m.automaton.Linked) (hP : P.PanicsOnly may)
    (cs : List (Call α)) :
    (m.replies P cs).Ensures may fun found => found.length = cs.length := by
  obtain ⟨s, hbegin, hrest, -⟩ := Scanner.exists_begin_eq_ok (α := α) hm P
  rw [replies, scanner, hbegin, Run.ofChecked_ok_bind]
  exact Scanner.ensures_eachCall hm hP hrest cs

end Matcher

end Motif
