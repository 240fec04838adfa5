/-
Attempts, from one element to a whole run.

Two things are said about an attempt here. It never faults and never claims more
than it has consumed (`Fits`, `ensures_run`). And its outcome does not depend on
when it learns the length of the input (`alike_toldAtEnd`).

The second is a simulation. Of two attempts in the same place, let one know the
length and the other not. As long as the position is not the length, they find the
same states and the same best length, and they differ in one respect: the one that
does not know the length may stay alive with no state active, because an anchor is
undecided. The next element shows that the anchor does not hold there; it is read
without evaluating anything and ends the attempt. At the last position the attempt
that did not know the length is told, and closes its seeds again.
-/
import Motif.Search
import Motif.Proofs.Step

set_option autoImplicit false

namespace Motif

variable {π α μ ε : Type}

namespace Attempt

/-! ## Runs in related surroundings -/

section Alike

open Run

variable {R : Env π α μ → Env π α μ → Prop} {P : Predicates π α μ ε}

theorem alike_advance (hP : P.Respects R) (m : Matcher π) (length : Option Nat) (x : α)
    (a : Attempt) : (a.advance P m length x).Alike R (a.advance P m length x) := by
  unfold advance
  split
  · exact (m.automaton.alike_step hP a.active x).bind fun seeds => alike_ofChecked _
  · exact alike_fail _

theorem alike_feed (hP : P.Respects R) (m : Matcher π) (length : Option Nat) (xs : List α)
    (a : Attempt) : (a.feed P m length xs).Alike R (a.feed P m length xs) := by
  induction xs generalizing a with
  | nil => exact alike_pure a
  | cons x xs ih =>
    unfold feed
    split
    · exact (alike_advance hP m length x a).bind fun a => ih a
    · exact alike_pure a

theorem alike_run (hP : P.Respects R) (m : Matcher π) (length : Option Nat) (start : Nat)
    (ahead : List α) : (run P m length start ahead).Alike R (run P m length start ahead) :=
  (alike_ofChecked _).bind fun a => a.alike_feed hP m length ahead

end Alike

/-- Two runs of elements may be consumed one after the other. -/
theorem feed_append (P : Predicates π α μ ε) (m : Matcher π) (length : Option Nat)
    (xs ys : List α) (a : Attempt) :
    a.feed P m length (xs ++ ys) = a.feed P m length xs >>= feed P m length ys := by
  induction xs generalizing a with
  | nil => rw [List.nil_append, feed, pure_bind]
  | cons x xs ih =>
    rw [List.cons_append, feed, feed]
    split
    · rw [bind_assoc]
      exact congrArg _ (funext fun a => ih a)
    · rename_i hdead
      rw [pure_bind, feed_of_dead P m length ys (Bool.eq_false_iff.2 hdead)]

/-- Consuming one element if there is life in the attempt. -/
theorem feed_singleton (P : Predicates π α μ ε) (m : Matcher π) (length : Option Nat) (x : α)
    (a : Attempt) :
    a.feed P m length [x] = if a.alive then a.advance P m length x else pure a := by
  rw [feed]
  split
  · exact bind_pure _
  · rfl

/-- A run may be interrupted and continued with more elements. -/
theorem run_append (P : Predicates π α μ ε) (m : Matcher π) (length : Option Nat) (start : Nat)
    (xs ys : List α) :
    run P m length start (xs ++ ys) = run P m length start xs >>= feed P m length ys := by
  rw [run, run, bind_assoc]
  exact congrArg _ (funext fun b => feed_append P m length xs ys b)

theorem gives_run_append {P : Predicates π α μ ε} {m : Matcher π} {length : Option Nat}
    {start : Nat} {xs ys : List α} {a a' : Attempt} (h : (run P m length start xs).Gives a)
    (h' : (a.feed P m length ys).Gives a') : (run P m length start (xs ++ ys)).Gives a' := by
  rw [run_append]
  exact h.bind h'

/-! ## No attempt claims too much -/

/-- The attempt is somewhere in the automaton of the matcher, and it claims no more
than it has consumed. -/
structure Fits (m : Matcher π) (a : Attempt) : Prop where
  seeds_lt : ∀ q ∈ a.seeds.toList, q < m.automaton.size
  active_lt : ∀ q ∈ a.active.toList, q < m.automaton.size
  /-- The attempt did not go backwards. -/
  start_le : a.start ≤ a.position
  /-- The best match ends where the attempt has been. -/
  best_le : ∀ n, a.best = some n → a.start + n ≤ a.position

/-- The best length once the closure is found. -/
def bestGiven (m : Matcher π) (c : Closure) (a : Attempt) : Option Nat :=
  if m.automaton.accept ∈ c.states.toList then some (a.position - a.start) else a.best

section Fits

variable {m : Matcher π} {a : Attempt}

theorem bestWith_eq (c : Closure) (h : a.start ≤ a.position) :
    a.bestWith m c = .ok (a.bestGiven m c) := by
  unfold bestWith bestGiven
  by_cases haccept : m.automaton.accept ∈ c.states.toList
  · rw [if_pos (StateSet.contains_iff.2 haccept), if_pos haccept, distance_of_le h]
    rfl
  · rw [if_neg (fun hc => haccept (StateSet.contains_iff.1 hc)), if_neg haccept]
    rfl

/-- What the attempt is once the closure is found. -/
def withClosure (m : Matcher π) (c : Closure) (a : Attempt) : Attempt :=
  a.settled m c (a.bestGiven m c)

theorem refresh_of_closure {length : Option Nat} {c : Closure} (h : a.start ≤ a.position)
    (hc : m.automaton.closure a.seeds.toList a.position length = .ok c) :
    a.refresh m length = .ok (a.withClosure m c) := by
  rw [refresh, hc]
  change (a.bestWith m c >>= fun best => pure (a.settled m c best)) = _
  rw [bestWith_eq c h]
  rfl

theorem fits_withClosure {length : Option Nat} {c : Closure}
    (hseeds : ∀ q ∈ a.seeds.toList, q < m.automaton.size) (hstart : a.start ≤ a.position)
    (hbest : ∀ n, a.best = some n → a.start + n ≤ a.position)
    (hc : m.automaton.closure a.seeds.toList a.position length = .ok c) :
    (a.withClosure m c).Fits m := by
  refine ⟨hseeds, ?_, hstart, ?_⟩
  · intro q hq
    obtain ⟨_, -, hleads⟩ := (Automaton.mem_closure_iff hc).1 hq
    obtain ⟨state, hstate, -⟩ := hleads.open_last
    exact Automaton.lt_size_of_state? hstate
  · intro n hn
    have hn' : a.bestGiven m c = some n := hn
    unfold bestGiven at hn'
    split at hn'
    · cases hn'
      exact Nat.le_of_eq (Nat.add_sub_cancel' hstart)
    · exact hbest n hn'

/-- With seeds that are states the closure is found. -/
theorem exists_refresh_eq_ok (hm : m.automaton.Linked)
    (hseeds : ∀ q ∈ a.seeds.toList, q < m.automaton.size) (hstart : a.start ≤ a.position)
    (hbest : ∀ n, a.best = some n → a.start + n ≤ a.position) (length : Option Nat) :
    ∃ c, m.automaton.closure a.seeds.toList a.position length = .ok c ∧
      a.refresh m length = .ok (a.withClosure m c) ∧ (a.withClosure m c).Fits m := by
  obtain ⟨c, hc⟩ := Automaton.exists_closure_eq_ok hm hseeds a.position length
  exact ⟨c, hc, refresh_of_closure hstart hc, fits_withClosure hseeds hstart hbest hc⟩

/-- A new attempt whose closure has not been searched yet. -/
def fresh (m : Matcher π) (start : Nat) : Attempt where
  start
  position := start
  seeds := StateSet.ofList [m.automaton.start]
  active := ∅
  best := none
  alive := true

theorem begin_eq (m : Matcher π) (length : Option Nat) (start : Nat) :
    begin m length start = (fresh m start).refresh m length := rfl

@[simp] theorem start_fresh (m : Matcher π) (start : Nat) : (fresh m start).start = start := rfl

@[simp] theorem position_fresh (m : Matcher π) (start : Nat) :
    (fresh m start).position = start := rfl

@[simp] theorem best_fresh (m : Matcher π) (start : Nat) : (fresh m start).best = none := rfl

@[simp] theorem toList_seeds_fresh (m : Matcher π) (start : Nat) :
    (fresh m start).seeds.toList = [m.automaton.start] := StateSet.toList_ofList_singleton _

/-- A new attempt finds its first closure. -/
theorem exists_refresh_fresh_eq_ok (hm : m.automaton.Linked) (length : Option Nat) (start : Nat) :
    ∃ c, m.automaton.closure [m.automaton.start] start length = .ok c ∧
      begin m length start = .ok ((fresh m start).withClosure m c) ∧
      ((fresh m start).withClosure m c).Fits m := by
  obtain ⟨c, hc, hrefresh, hfits⟩ := exists_refresh_eq_ok (a := fresh m start) hm
    (by simp [hm.start_lt]) (Nat.le_refl start) (by simp) length
  rw [toList_seeds_fresh] at hc
  exact ⟨c, hc, hrefresh, hfits⟩

theorem exists_begin_eq_ok (hm : m.automaton.Linked) (length : Option Nat) (start : Nat) :
    ∃ a, begin m length start = .ok a ∧ a.Fits m ∧ a.start = start ∧ a.position = start := by
  obtain ⟨c, -, hbegin, hfits⟩ := exists_refresh_fresh_eq_ok hm length start
  exact ⟨_, hbegin, hfits, rfl, rfl⟩

/-- The second attempt is the first one after at most `n` more elements, and after all
of them if it is still alive. -/
structure Continues (m : Matcher π) (a : Attempt) (n : Nat) (a' : Attempt) : Prop where
  fits : a'.Fits m
  start_eq : a'.start = a.start
  position_le : a'.position ≤ a.position + n
  position_eq : a'.alive = true → a'.position = a.position + n
  /-- No attempt comes back to life. -/
  alive_of : a'.alive = true → a.alive = true

variable {may : ε → Prop} {P : Predicates π α μ ε}

theorem advance_of_alive (halive : a.alive = true) (length : Option Nat) (x : α) :
    a.advance P m length x = (do
      let seeds ← m.automaton.step P a.active x
      Run.ofChecked (refresh m length { a with seeds, position := a.position + 1 })) :=
  if_pos halive

/-- **What an element leads to.** The seeds are read by active states, and their closure is
found. -/
theorem ensures_advance_of {S C : Label π → Prop} {Q : Attempt → Prop} {x : α}
    (hm : m.automaton.Linked) (hmet : Label.MetWithin P x may S C) {length : Option Nat}
    (h : a.Fits m) (halive : a.alive = true)
    (hnext : ∀ (seeds : StateSet) (c : Closure),
      (∀ t ∈ seeds.toList, m.automaton.Read a.active.toList S t) →
      (∀ t, m.automaton.Read a.active.toList C t → t ∈ seeds.toList) →
      m.automaton.closure seeds.toList (a.position + 1) length = .ok c →
      (withClosure m c { a with seeds, position := a.position + 1 }).Fits m →
      Q (withClosure m c { a with seeds, position := a.position + 1 })) :
    (a.advance P m length x).Ensures may Q := by
  rw [advance_of_alive halive]
  refine (m.automaton.ensures_step hmet h.active_lt).bind ?_
  rintro seeds ⟨hsound, hcomplete⟩
  obtain ⟨c, hc, hrefresh, hfits⟩ := exists_refresh_eq_ok (m := m)
    (a := { a with seeds, position := a.position + 1 }) hm
    (fun q hq => hm.lt_of_read (hsound q hq)) (Nat.le_succ_of_le h.start_le)
    (fun n hn => Nat.le_succ_of_le (h.best_le n hn)) length
  exact Run.ensures_ofChecked hrefresh (hnext seeds c hsound hcomplete hc hfits)

/-- Nothing is known of the answers here, and nothing has to be: every target is a state. -/
theorem ensures_advance (hm : m.automaton.Linked) (hP : P.PanicsOnly may) (length : Option Nat)
    (x : α) (h : a.Fits m) (halive : a.alive = true) :
    (a.advance P m length x).Ensures may fun a' =>
      Continues m a 1 a' ∧ a'.position = a.position + 1 :=
  ensures_advance_of hm (Label.metWithin_all hP) h halive fun _ _ _ _ _ hfits =>
    ⟨⟨hfits, rfl, Nat.le_refl _, fun _ => rfl, fun _ => halive⟩, rfl⟩

/-- What every element preserves, any elements preserve. -/
theorem ensures_feed_of {I : Attempt → Prop} (length : Option Nat)
    (hstep : ∀ a x, I a → a.alive = true → (a.advance P m length x).Ensures may I) (xs : List α)
    (h : I a) : (a.feed P m length xs).Ensures may I := by
  induction xs generalizing a with
  | nil => exact Run.ensures_pure h
  | cons x xs ih =>
    rw [feed]
    split
    · rename_i halive
      exact (hstep a x h halive).bind fun a' h' => ih h'
    · exact Run.ensures_pure h

theorem ensures_feed (hm : m.automaton.Linked) (hP : P.PanicsOnly may) (length : Option Nat)
    (xs : List α) (h : a.Fits m) :
    (a.feed P m length xs).Ensures may (Continues m a xs.length) := by
  induction xs generalizing a with
  | nil => exact Run.ensures_pure ⟨h, rfl, Nat.le_refl _, fun _ => rfl, id⟩
  | cons x xs ih =>
    rw [feed]
    split
    · rename_i halive
      refine (ensures_advance hm hP length x h halive).bind ?_
      rintro a' ⟨hcont, hposition⟩
      refine (ih hcont.fits).mono ?_
      intro a'' h''
      refine ⟨h''.fits, h''.start_eq.trans hcont.start_eq, ?_, ?_, fun _ => halive⟩
      · have := h''.position_le
        rw [List.length_cons]
        omega
      · intro ha''
        have := h''.position_eq ha''
        rw [List.length_cons]
        omega
    · rename_i hdead
      exact Run.ensures_pure ⟨h, rfl, Nat.le_add_right _ _, fun ha => absurd ha hdead, id⟩

/-- **A run of an attempt.** It ends without a fault, where it began, and it claims no
more than what lies ahead. -/
theorem ensures_run (hm : m.automaton.Linked) (hP : P.PanicsOnly may) (length : Option Nat)
    (start : Nat) (ahead : List α) :
    (run P m length start ahead).Ensures may fun a =>
      a.Fits m ∧ a.start = start ∧ a.position ≤ start + ahead.length ∧
        (a.alive = true → a.position = start + ahead.length) := by
  obtain ⟨a, hbegin, hfits, hstart, hposition⟩ := exists_begin_eq_ok hm length start
  rw [run, hbegin]
  rw [Run.ofChecked_ok_bind]
  refine (ensures_feed hm hP length ahead hfits).mono ?_
  intro a' h'
  refine ⟨h'.fits, h'.start_eq.trans hstart, ?_, ?_⟩
  · rw [← hposition]
    exact h'.position_le
  · intro halive
    rw [← hposition]
    exact h'.position_eq halive

/-- An attempt that has seen the whole input can be concluded. -/
theorem exists_conclude_eq_ok (hm : m.automaton.Linked) (h : a.Fits m) {length : Nat}
    (hlength : a.alive = true → a.position = length) :
    ∃ a', a.conclude m length = .ok a' ∧ a'.Fits m ∧ a'.start = a.start ∧
      a'.position = a.position ∧ a'.alive = false := by
  unfold conclude
  split
  · -- The attempt has come to the end of the input, as it should.
    rename_i halive
    rw [if_pos (hlength halive)]
    obtain ⟨c, -, hrefresh, hfits⟩ :=
      exists_refresh_eq_ok hm h.seeds_lt h.start_le h.best_le (some length)
    rw [hrefresh]
    exact ⟨_, rfl, ⟨hfits.seeds_lt, hfits.active_lt, hfits.start_le, hfits.best_le⟩, rfl, rfl, rfl⟩
  · exact ⟨_, rfl, ⟨h.seeds_lt, h.active_lt, h.start_le, h.best_le⟩, rfl, rfl, rfl⟩

end Fits

/-! ## When the length is learnt -/

section Length

variable {m : Matcher π} {a : Attempt}

/-- The attempt as it would be if its closure had been searched with the length known.
Nothing is undecided then, so a state has to be active for it to be alive. -/
def decided (a : Attempt) : Attempt := { a with alive := a.alive && !a.active.isEmpty }

theorem alive_decided_of_dead (h : a.alive = false) : a.decided.alive = false := by
  rw [decided, h, Bool.false_and]

theorem alive_decided_of_active_nil (h : a.active.toList = []) : a.decided.alive = false := by
  rw [decided, StateSet.isEmpty_eq, h]
  exact Bool.and_false _

/-- Away from the end an attempt that knows the length is the decided one. -/
theorem refresh_some_of_ne {l : Nat} (hl : l ≠ a.position) :
    a.refresh m (some l) = (a.refresh m none).map decided := by
  rw [refresh, refresh, Automaton.closure_some_of_ne hl]
  cases m.automaton.closure a.seeds.toList a.position none with
  | error cause => rfl
  | ok c =>
    change (a.bestWith m c >>= fun best => pure (a.settled m { c with deferred := false } best)) =
      (a.bestWith m c >>= fun best => pure (a.settled m c best)).map decided
    cases a.bestWith m c with
    | error cause => rfl
    | ok best =>
      have halive : (a.settled m { c with deferred := false } best) =
          (a.settled m c best).decided := by
        unfold settled decided
        congr 1
        cases c.states.contains m.automaton.accept && !m.greedy <;>
          cases c.states.isEmpty <;> cases c.deferred <;> rfl
      exact congrArg Except.ok halive

theorem begin_some_of_ne {l start : Nat} (hl : l ≠ start) (h : begin m none start = .ok a) :
    begin m (some l) start = .ok a.decided := by
  rw [begin] at h ⊢
  rw [refresh_some_of_ne hl, h]
  rfl

/-- At the end it comes to the same whether an attempt closes its seeds with the length
known, or without it and once more when it is told. -/
theorem exists_conclude_refresh (hm : m.automaton.Linked)
    (hseeds : ∀ q ∈ a.seeds.toList, q < m.automaton.size) (hstart : a.start ≤ a.position) :
    ∃ a' concluded known, a.refresh m none = .ok a' ∧
      a'.conclude m a.position = .ok concluded ∧ a.refresh m (some a.position) = .ok known ∧
      concluded.best = known.best := by
  obtain ⟨c, hc⟩ := Automaton.exists_closure_eq_ok hm hseeds a.position none
  obtain ⟨c', hc'⟩ := Automaton.exists_closure_eq_ok hm hseeds a.position (some a.position)
  have hrefresh := refresh_of_closure (m := m) hstart hc
  have hknown := refresh_of_closure (m := m) hstart hc'
  have hsub : m.automaton.accept ∈ c.states.toList → m.automaton.accept ∈ c'.states.toList :=
    Automaton.mem_closure_some_of_none hc hc'
  cases halive : (a.withClosure m c).alive with
  | true =>
    -- The closure is searched again, and it has only grown.
    have hagain : (a.withClosure m c).refresh m (some a.position) =
        .ok ((a.withClosure m c).withClosure m c') := refresh_of_closure hstart hc'
    refine ⟨_, ((a.withClosure m c).withClosure m c').giveUp, _, hrefresh, ?_, hknown, ?_⟩
    · have hposition : (a.withClosure m c).position = a.position := rfl
      rw [conclude, if_pos halive, if_pos hposition, hagain]
      rfl
    · change (a.withClosure m c).bestGiven m c' = a.bestGiven m c'
      unfold bestGiven
      split
      · rfl
      · rename_i haccept
        exact if_neg fun h => haccept (hsub h)
  | false =>
    refine ⟨_, (a.withClosure m c).giveUp, _, hrefresh, ?_, hknown, ?_⟩
    · rw [conclude, if_neg (by rw [halive]; exact Bool.false_ne_true)]
      rfl
    · change a.bestGiven m c = a.bestGiven m c'
      by_cases haccept : m.automaton.accept ∈ c.states.toList
      · unfold bestGiven
        rw [if_pos haccept, if_pos (hsub haccept)]
      · -- Dead without a match: no state is active and none is undecided.
        have hdeferred : c.deferred = false := by
          have hcontains : c.states.contains m.automaton.accept = false := by
            rw [StateSet.contains_eq_decide]
            exact decide_eq_false haccept
          simp only [withClosure, settled, hcontains, Bool.false_and] at halive
          exact (Bool.or_eq_false_iff.1 halive).2
        have hsame := Automaton.closure_some_of_not_deferred hc hdeferred a.position
        rw [hc'] at hsame
        cases hsame
        rfl

/-- The best length of an attempt that consumes elements and is told the length after
the last one. -/
def bestToldAtEnd (P : Predicates π α μ ε) (m : Matcher π) (length : Nat) (xs : List α)
    (a : Attempt) : Run π α μ ε (Option Nat) := do
  let a ← a.feed P m none xs
  let a ← Run.ofChecked (a.conclude m length)
  return a.best

/-- The best length of an attempt that consumes elements and knows the length. -/
def bestKnowing (P : Predicates π α μ ε) (m : Matcher π) (length : Nat) (xs : List α)
    (a : Attempt) : Run π α μ ε (Option Nat) := do
  let a ← a.feed P m (some length) xs
  return a.best

variable {P : Predicates π α μ ε} {R : Env π α μ → Env π α μ → Prop}

theorem alike_bestKnowing (hP : P.Respects R) (length : Nat) (xs : List α) :
    (a.bestKnowing P m length xs).Alike R (a.bestKnowing P m length xs) :=
  (alike_feed hP m (some length) xs a).bind fun _ => Run.alike_pure _

theorem bestToldAtEnd_of_dead (length : Nat) (xs : List α) (hdead : a.alive = false) :
    a.bestToldAtEnd P m length xs = pure a.best := by
  rw [bestToldAtEnd, feed_of_dead P m none xs hdead, pure_bind, conclude,
    if_neg (by rw [hdead]; exact Bool.false_ne_true)]
  rfl

theorem bestKnowing_of_dead (length : Nat) (xs : List α) (hdead : a.alive = false) :
    a.bestKnowing P m length xs = pure a.best := by
  rw [bestKnowing, feed_of_dead P m (some length) xs hdead, pure_bind]

/-- An attempt that lives on an undecided anchor alone dies of the next element: it is read by
no state, nothing is evaluated for it, and its closure is empty. -/
theorem advance_of_active_nil (P : Predicates π α μ ε) (m : Matcher π) (x : α)
    (hstart : a.start ≤ a.position) (halive : a.alive = true) (hactive : a.active.toList = []) :
    ∃ a' : Attempt, a.advance P m none x = pure a' ∧ a'.alive = false ∧ a'.best = a.best ∧
      a'.position = a.position + 1 := by
  have hclosure : m.automaton.closure (∅ : StateSet).toList (a.position + 1) none = .ok {} := by
    rw [StateSet.toList_empty, Automaton.closure_nil]
  have hrefresh := refresh_of_closure (m := m)
    (a := { a with seeds := ∅, position := a.position + 1 }) (Nat.le_succ_of_le hstart) hclosure
  have hbest : ({ a with seeds := ∅, position := a.position + 1 } : Attempt).bestGiven m {} =
      a.best := if_neg (by simp)
  refine ⟨withClosure m {} { a with seeds := ∅, position := a.position + 1 }, ?_, ?_, hbest, rfl⟩
  · rw [advance_of_alive halive, Automaton.step_of_toList_eq_nil _ hactive, pure_bind, hrefresh]
    rfl
  · simp [withClosure, settled]

theorem bestToldAtEnd_of_active_nil (length : Nat) (x : α) (xs : List α)
    (hstart : a.start ≤ a.position) (halive : a.alive = true) (hactive : a.active.toList = []) :
    a.bestToldAtEnd P m length (x :: xs) = pure a.best := by
  obtain ⟨a', hadvance, hdead, hbest, -⟩ := advance_of_active_nil P m x hstart halive hactive
  rw [bestToldAtEnd, feed, if_pos halive, hadvance, pure_bind, ← hbest]
  exact bestToldAtEnd_of_dead length xs hdead

theorem bestToldAtEnd_cons (halive : a.alive = true) (length : Nat) (x : α) (xs : List α) :
    a.bestToldAtEnd P m length (x :: xs) = (do
      let seeds ← m.automaton.step P a.active x
      let a' ← Run.ofChecked (refresh m none { a with seeds, position := a.position + 1 })
      a'.bestToldAtEnd P m length xs) := by
  rw [bestToldAtEnd, feed, if_pos halive, advance_of_alive halive, bind_assoc, bind_assoc]
  rfl

theorem bestKnowing_cons (halive : a.alive = true) (length : Nat) (x : α) (xs : List α) :
    a.bestKnowing P m length (x :: xs) = (do
      let seeds ← m.automaton.step P a.active x
      let a' ← Run.ofChecked (refresh m (some length) { a with seeds, position := a.position + 1 })
      a'.bestKnowing P m length xs) := by
  rw [bestKnowing, feed, if_pos halive, advance_of_alive halive, bind_assoc, bind_assoc]
  rfl

theorem decided_of_active (halive : a.alive = true) (hactive : a.active.toList ≠ []) :
    a.decided = a := by
  have hempty : a.active.isEmpty = false := by
    rw [StateSet.isEmpty_eq]
    exact List.isEmpty_eq_false_iff.2 hactive
  unfold decided
  rw [hempty, halive]
  cases a
  cases halive
  rfl

/-- At the last position both attempts close the same seeds, and come to the same. -/
theorem bestToldAtEnd_nil_eq (hm : m.automaton.Linked)
    (hseeds : ∀ q ∈ a.seeds.toList, q < m.automaton.size) (hstart : a.start ≤ a.position) :
    (do
      let a' ← Run.ofChecked (a.refresh m none)
      a'.bestToldAtEnd P m a.position []) =
    (do
      let a' ← Run.ofChecked (a.refresh m (some a.position))
      a'.bestKnowing P m a.position []) := by
  obtain ⟨a', concluded, known, hnone, hconclude, hsome, hbest⟩ :=
    exists_conclude_refresh hm hseeds hstart
  have hleft : a'.bestToldAtEnd P m a.position [] = pure concluded.best := by
    rw [bestToldAtEnd, feed, pure_bind, hconclude]
    rfl
  have hright : known.bestKnowing P m a.position [] = pure known.best := by
    rw [bestKnowing, feed, pure_bind]
  rw [hnone, hsome]
  change a'.bestToldAtEnd P m a.position [] = known.bestKnowing P m a.position []
  rw [hleft, hright, hbest]

/-- **The length may be learnt late.** The invariant is that one attempt is the other
one, decided; it holds until the last element is consumed, and from there both come to
the same. -/
theorem alike_bestToldAtEnd (hm : m.automaton.Linked) (hP : P.Respects R) {a : Attempt}
    {l : Nat} (x : α) (xs : List α) (h : a.Fits m) (hl : a.position + (xs.length + 1) = l) :
    (a.bestToldAtEnd P m l (x :: xs)).Alike R (a.decided.bestKnowing P m l (x :: xs)) := by
  cases halive : a.alive with
  | false =>
    -- Both attempts are dead.
    rw [bestToldAtEnd_of_dead l _ halive, bestKnowing_of_dead l _ (alive_decided_of_dead halive)]
    exact Run.alike_pure _
  | true =>
    by_cases hactive : a.active.toList = []
    · -- One is dead, and the other one dies of the next element.
      rw [bestToldAtEnd_of_active_nil l x xs h.start_le halive hactive,
        bestKnowing_of_dead l _ (alive_decided_of_active_nil hactive)]
      exact Run.alike_pure _
    · -- The attempts are the same, and they read the same element.
      rw [decided_of_active halive hactive, bestToldAtEnd_cons halive, bestKnowing_cons halive]
      have hstep := m.automaton.ensures_step (Label.metWithin_all (x := x) P.panicsOnly_true)
        h.active_lt
      refine (m.automaton.alike_step hP a.active x).bind_of_ensures hstep ?_
      rintro seeds ⟨hread, -⟩
      have hlt : ∀ q ∈ seeds.toList, q < m.automaton.size := fun q hq =>
        hm.lt_of_read (hread q hq)
      have hstart : a.start ≤ a.position + 1 := Nat.le_succ_of_le h.start_le
      cases xs with
      | nil =>
        -- It was the last one.
        have hend : a.position + 1 = l := hl
        subst hend
        have heq := bestToldAtEnd_nil_eq (P := P) (m := m)
          (a := { a with seeds, position := a.position + 1 }) hm hlt hstart
        rw [heq]
        exact (Run.alike_ofChecked _).bind fun a' => alike_bestKnowing hP _ _
      | cons y xs =>
        -- There are more, and the invariant holds again.
        obtain ⟨c, -, hrefresh, hfits⟩ := exists_refresh_eq_ok (m := m)
          (a := { a with seeds, position := a.position + 1 }) hm hlt hstart
          (fun n hn => Nat.le_succ_of_le (h.best_le n hn)) none
        have hne : l ≠ a.position + 1 := by
          rw [List.length_cons] at hl
          omega
        rw [refresh_some_of_ne hne, hrefresh]
        refine alike_bestToldAtEnd hm hP y xs hfits ?_
        change a.position + 1 + (xs.length + 1) = l
        rw [← hl, List.length_cons]
        omega
termination_by xs.length

/-- **An attempt at the first of some elements.** It comes to the same best length, by
the same evaluations, if it is told only at the end how many elements there are. -/
theorem alike_toldAtEnd (hm : m.automaton.Linked) (hP : P.Respects R) (start : Nat)
    (ahead : List α) :
    (do
      let a ← Run.ofChecked (begin m none start)
      a.bestToldAtEnd P m (start + ahead.length) ahead : Run π α μ ε (Option Nat)).Alike R
    (m.lengthAhead P start ahead) := by
  rw [Matcher.lengthAhead, run, bind_assoc]
  change Run.Alike R _ (Run.ofChecked (begin m (some (start + ahead.length)) start) >>= fun a =>
    a.bestKnowing P m (start + ahead.length) ahead)
  cases ahead with
  | nil =>
    have heq := bestToldAtEnd_nil_eq (P := P) (a := fresh m start) hm (by simp [hm.start_lt])
      (Nat.le_refl start)
    rw [begin_eq, begin_eq, List.length_nil, Nat.add_zero]
    change Run.Alike R (Run.ofChecked ((fresh m start).refresh m none) >>= fun a' =>
      a'.bestToldAtEnd P m (fresh m start).position []) _
    rw [heq]
    exact (Run.alike_ofChecked _).bind fun a' => alike_bestKnowing hP _ _
  | cons x xs =>
    obtain ⟨a, hbegin, hfits, -, hposition⟩ := exists_begin_eq_ok hm none start
    have hne : start + (x :: xs).length ≠ start := by
      rw [List.length_cons]
      omega
    rw [begin_some_of_ne hne hbegin, hbegin]
    exact alike_bestToldAtEnd hm hP x xs hfits (by rw [hposition, List.length_cons])

end Length

end Attempt

end Motif
