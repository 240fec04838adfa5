/-
How much work a search is.

Work is counted in evaluations of predicates. An element is tried at every reading edge
of every active state, and no state is active twice, so for each element an attempt makes
at most as many evaluations as the automaton has edges with predicates. A search makes
an attempt at every position that it is not carried over by a match, and each of them may
run to the end of the input. There is one block of evaluations for each pair of an attempt
and an element that lies ahead of it, and that makes the work of a search at most
quadratic in the length of the input (`Matcher.calls_allMatches_le`).

In general it is not less. Attempts know nothing of each other, and what one of them has
read before it failed is read again by the next one. A greedy pattern that goes on over
everything and then waits for an element that never comes is tried from each position to
the end of the input (`Matcher.choose_two_le_calls_allMatches`). No attempt of such a
pattern is expensive, however deep its repetitions are nested, but all of them together
are more than any multiple of the length.
-/
import Mathlib.Data.Nat.Choose.Basic
import Motif.Proofs.Preference
import Motif.Proofs.Questions

set_option autoImplicit false

namespace Motif

variable {π α μ ε β γ : Type}

/-! ## Counting evaluations -/

namespace Run

/-- Wherever the run is started, it makes no more than `n` evaluations. -/
def CallsAtMost (r : Run π α μ ε β) (n : Nat) : Prop :=
  ∀ env, (r.outcome env).2.calls.size ≤ env.calls.size + n

/-- Wherever the run is started, it makes `n` evaluations or more. -/
def CallsAtLeast (r : Run π α μ ε β) (n : Nat) : Prop :=
  ∀ env, env.calls.size + n ≤ (r.outcome env).2.calls.size

section AtMost

variable {r : Run π α μ ε β} {next : β → Run π α μ ε γ} {n n' : Nat}

theorem callsAtMost_pure (b : β) : (pure b : Run π α μ ε β).CallsAtMost 0 :=
  fun _ => Nat.le_refl _

theorem callsAtMost_fail (cause : Fault) : (fail cause : Run π α μ ε β).CallsAtMost 0 :=
  fun _ => Nat.le_refl _

theorem callsAtMost_ofChecked (c : Except Fault β) :
    (ofChecked c : Run π α μ ε β).CallsAtMost 0 := by
  cases c with
  | ok b => exact callsAtMost_pure b
  | error cause => exact callsAtMost_fail cause

theorem callsAtMost_evaluate (P : Predicates π α μ ε) (handle : π) (x : α) :
    (evaluate P handle x).CallsAtMost 1 := by
  intro env
  rw [outcome_evaluate, Array.size_push]

theorem CallsAtMost.mono (h : r.CallsAtMost n) (hle : n ≤ n') : r.CallsAtMost n' :=
  fun env => Nat.le_trans (h env) (Nat.add_le_add_left hle _)

/-- The evaluations of the parts add up. The rest only has to be counted for what the first
part can return. -/
theorem CallsAtMost.bind {Q : β → Prop} (h : r.CallsAtMost n) (hr : r.Returns Q)
    (hnext : ∀ b, Q b → (next b).CallsAtMost n') : (r >>= next).CallsAtMost (n + n') := by
  intro env
  have hcalls := h env
  have hQ := hr env
  rcases houtcome : r.outcome env with ⟨result, env'⟩
  rw [houtcome] at hcalls hQ
  cases result with
  | ok b =>
    rw [outcome_bind_of_ok houtcome]
    have hrest := hnext b (hQ b rfl) env'
    dsimp only at hcalls
    omega
  | error cause =>
    rw [outcome_bind_of_error houtcome]
    exact Nat.le_trans hcalls (by omega)

theorem CallsAtMost.bind_any (h : r.CallsAtMost n) (hnext : ∀ b, (next b).CallsAtMost n') :
    (r >>= next).CallsAtMost (n + n') :=
  h.bind (Q := fun _ => True) (fun _ _ _ => trivial) fun b _ => hnext b

/-- What is checked first evaluates nothing. -/
theorem CallsAtMost.ofChecked_bind {c : Except Fault β} (hnext : ∀ b, (next b).CallsAtMost n) :
    (ofChecked c >>= next).CallsAtMost n := by
  rw [← Nat.zero_add n]
  exact (callsAtMost_ofChecked c).bind_any hnext

/-- What is done with the result alone evaluates nothing. -/
theorem CallsAtMost.bind_free (h : r.CallsAtMost n) (hnext : ∀ b, (next b).CallsAtMost 0) :
    (r >>= next).CallsAtMost n := h.bind_any hnext

end AtMost

section AtLeast

variable {r : Run π α μ ε β} {next : β → Run π α μ ε γ} {n n' : Nat}

theorem callsAtLeast_pure (b : β) : (pure b : Run π α μ ε β).CallsAtLeast 0 :=
  fun _ => Nat.le_refl _

theorem callsAtLeast_ofChecked (c : Except Fault β) :
    (ofChecked c : Run π α μ ε β).CallsAtLeast 0 := by
  cases c with
  | ok b => exact callsAtLeast_pure b
  | error cause => exact fun _ => Nat.le_refl _

theorem CallsAtLeast.mono (h : r.CallsAtLeast n) (hle : n' ≤ n) : r.CallsAtLeast n' :=
  fun env => Nat.le_trans (Nat.add_le_add_left hle _) (h env)

/-- A part that always returns leaves the evaluations of the rest to be made. -/
theorem CallsAtLeast.bind {Q : β → Prop} (h : r.CallsAtLeast n)
    (hr : r.Ensures (fun _ => False) Q) (hnext : ∀ b, Q b → (next b).CallsAtLeast n') :
    (r >>= next).CallsAtLeast (n + n') := by
  intro env
  have hcalls := h env
  obtain ⟨b, hb, hQ⟩ := hr.exists_ok env
  rcases houtcome : r.outcome env with ⟨result, env'⟩
  rw [houtcome] at hcalls hb
  dsimp only at hb hcalls
  subst hb
  rw [outcome_bind_of_ok houtcome]
  have hrest := hnext b hQ env'
  omega

/-- What was evaluated stays evaluated, whatever comes next. -/
theorem CallsAtLeast.bind_any (h : r.CallsAtLeast n) (hnext : ∀ b, (next b).CallsAtLeast 0) :
    (r >>= next).CallsAtLeast n := by
  intro env
  have hcalls := h env
  rcases houtcome : r.outcome env with ⟨result, env'⟩
  rw [houtcome] at hcalls
  cases result with
  | ok b =>
    rw [outcome_bind_of_ok houtcome]
    exact Nat.le_trans hcalls (hnext b env')
  | error cause =>
    rw [outcome_bind_of_error houtcome]
    exact hcalls

end AtLeast

end Run

/-! ## No search is more than quadratic -/

namespace Automaton

variable (A : Automaton π) (P : Predicates π α μ ε) (x : α)

/-- Each edge with a predicate is evaluated once, unless one of them panics. -/
theorem callsAtMost_follow (edges : List (Label π × Nat)) (reached : StateSet) :
    (follow P x edges reached).CallsAtMost
      (edges.filterMap fun edge => edge.1.handle?).length := by
  induction edges generalizing reached with
  | nil => exact Run.callsAtMost_pure reached
  | cons edge edges ih =>
    obtain ⟨label, target⟩ := edge
    cases label with
    | any => exact ih (reached.insert target)
    | predicate handle =>
      have hsum : (((.predicate handle, target) :: edges).filterMap
          fun edge : Label π × Nat => edge.1.handle?).length =
          1 + (edges.filterMap fun edge => edge.1.handle?).length := Nat.add_comm _ 1
      rw [hsum]
      exact (Run.callsAtMost_evaluate P handle x).bind_any fun passes => ih _

/-- **One element.** No state is active twice, so no edge is tried twice. -/
theorem callsAtMost_step {active : StateSet} (hactive : ∀ q ∈ active.toList, q < A.size) :
    (A.step P active x).CallsAtMost A.allHandles.length := by
  rw [step, followAll_eq_follow A P x active.toList hactive]
  exact (callsAtMost_follow P x _ ∅).mono (A.length_handles_le active.nodup_toList hactive)

end Automaton

namespace Attempt

variable {m : Matcher π} {a : Attempt}

theorem callsAtMost_advance (P : Predicates π α μ ε) (length : Option Nat) (x : α)
    (h : a.Fits m) :
    (a.advance P m length x).CallsAtMost m.automaton.allHandles.length := by
  unfold advance
  split
  · exact (m.automaton.callsAtMost_step P x h.active_lt).bind_free
      fun _ => Run.callsAtMost_ofChecked _
  · exact (Run.callsAtMost_fail _).mono (Nat.zero_le _)

/-- **A whole attempt.** The induction is on the elements ahead. -/
theorem callsAtMost_feed (hm : m.automaton.Linked) (P : Predicates π α μ ε)
    (length : Option Nat) (ahead : List α) (h : a.Fits m) :
    (a.feed P m length ahead).CallsAtMost (m.automaton.allHandles.length * ahead.length) := by
  induction ahead generalizing a with
  | nil => exact Run.callsAtMost_pure a
  | cons x ahead ih =>
    rw [feed, List.length_cons, Nat.mul_succ, Nat.add_comm]
    split
    · rename_i halive
      have hfits := (ensures_advance hm P.panicsOnly_true length x h halive).returns
      exact (callsAtMost_advance P length x h).bind hfits fun a' ha' => ih ha'.1.fits
    · exact (Run.callsAtMost_pure a).mono (Nat.zero_le _)

end Attempt

namespace Matcher

variable {m : Matcher π}

theorem callsAtMost_lengthAhead (hm : m.automaton.Linked) (P : Predicates π α μ ε)
    (position : Nat) (ahead : List α) :
    (m.lengthAhead P position ahead).CallsAtMost
      (m.automaton.allHandles.length * ahead.length) := by
  obtain ⟨a, hbegin, hfits, -⟩ :=
    Attempt.exists_begin_eq_ok hm (some (position + ahead.length)) position
  rw [lengthAhead, Attempt.run, hbegin, Run.ofChecked_ok_bind]
  exact (Attempt.callsAtMost_feed hm P _ ahead hfits).bind_free fun a => Run.callsAtMost_pure a.best

end Matcher

namespace Search

variable {m : Matcher π}

/-- **A whole search.** Every attempt is followed by a search with less ahead of it. -/
theorem callsAtMost_all (hm : m.automaton.Linked) (P : Predicates π α μ ε) (s : Search m α) :
    (s.all P).CallsAtMost (m.automaton.allHandles.length * (s.ahead.length + 1).choose 2) := by
  by_cases h : s.ahead = []
  · rw [all_of_ahead_eq_nil P h]
    exact (Run.callsAtMost_pure []).mono (Nat.zero_le _)
  · rw [all_of_ahead_ne_nil h, Nat.choose_succ_succ', Nat.choose_one_right, Nat.mul_add]
    refine (m.callsAtMost_lengthAhead hm P s.position s.ahead).bind_any fun best => ?_
    refine Run.CallsAtMost.ofChecked_bind fun taken => ?_
    -- At least one element was used up, so the pairs that begin with it do not come again.
    have hlt := length_past_lt h best
    have hrest := (callsAtMost_all hm P (s.past best)).mono
      (Nat.mul_le_mul_left _ (Nat.choose_le_choose 2 hlt))
    exact hrest.bind_free fun rest => Run.callsAtMost_pure _
termination_by s.ahead.length
decreasing_by exact length_past_lt h best

end Search

namespace Matcher

/-- **The work of a search.** Whatever the predicates do, finding all matches evaluates
predicates at most as often as there are pairs of an offset and an element from there on,
times the number of edges with predicates. -/
theorem calls_allMatches_le (p : Pattern π) (P : Predicates π α μ ε) (xs : List α)
    (env : Env π α μ) :
    (((ofPattern p).allMatches P xs).outcome env).2.calls.size ≤
      env.calls.size +
        (ofPattern p).automaton.allHandles.length * (xs.length * (xs.length + 1) / 2) := by
  have hpairs : (xs.length + 1).choose 2 = xs.length * (xs.length + 1) / 2 := by
    rw [Nat.choose_two_right, Nat.add_sub_cancel, Nat.mul_comm]
  rw [← hpairs]
  exact Search.callsAtMost_all (Automaton.linked_ofPattern p) P (Search.ofList xs) env

end Matcher

/-! ## Some searches are quadratic -/

/-- Every edge with a predicate that is active is evaluated, if none of them panics. -/
theorem Automaton.callsAtLeast_step (A : Automaton π) {P : Predicates π α μ ε}
    (hP : P.NeverPanics) {active : StateSet} (hactive : ∀ q ∈ active.toList, q < A.size) (x : α) :
    (A.step P active x).CallsAtLeast (A.handles active.toList).length := by
  intro env
  obtain ⟨targets, memory, -, houtcome⟩ := A.exists_reads_step hP hactive x env
  rw [houtcome]
  simp [Env.after]

namespace Attempt

variable {m : Matcher π} {a : Attempt} {P : Predicates π α μ ε} {holds : π → α → Bool}
  {xs : List α} {offset : Nat}

theorem callsAtLeast_advance (hP : P.NeverPanics) (h : a.Fits m) (halive : a.alive = true)
    (length : Option Nat) (x : α) :
    (a.advance P m length x).CallsAtLeast (m.automaton.handles a.active.toList).length := by
  rw [advance_of_alive halive]
  exact (m.automaton.callsAtLeast_step hP h.active_lt x).bind_any
    fun _ => Run.callsAtLeast_ofChecked _

/-- As long as a route arrives somewhere, an attempt for long matches lives on. -/
theorem Tracks.alive_of_arrives (h : a.Tracks m holds xs offset) (hgreedy : m.greedy = true)
    {q : Nat} (hq : m.automaton.Arrives holds xs m.automaton.start offset q a.position) :
    a.alive = true := by
  have hactive := (h.mem_active q).2 hq
  refine Bool.of_not_eq_false fun hdead => ?_
  rcases h.dead hdead with hnil | ⟨hlazy, -⟩
  · rw [hnil] at hactive
    cases hactive
  · rw [hgreedy] at hlazy
    cases hlazy

/-- A route from `offset` arrives at position `k` in a state whose predicate is evaluated
there. -/
def ComesToPredicate (m : Matcher π) (holds : π → α → Bool) (xs : List α)
    (offset k : Nat) : Prop :=
  ∃ q state handle target, m.automaton.Arrives holds xs m.automaton.start offset q k ∧
    m.automaton.state? q = some state ∧ (.predicate handle, target) ∈ state.reading

theorem Tracks.handles_length_pos (h : a.Tracks m holds xs offset)
    (hcomes : ComesToPredicate m holds xs offset a.position) :
    0 < (m.automaton.handles a.active.toList).length := by
  obtain ⟨q, state, handle, target, hq, hstate, hedge⟩ := hcomes
  have hmem : (.predicate handle, target) ∈ m.automaton.edges a.active.toList := by
    refine List.mem_flatMap.2 ⟨q, (h.mem_active q).2 hq, ?_⟩
    rw [hstate]
    exact hedge
  exact List.length_pos_of_mem (List.mem_filterMap.2 ⟨_, hmem, rfl⟩)

/-- **An attempt that never gets stuck** goes on to the end of the input, and from the
position on at which it always comes to a predicate it evaluates something for each element.
The induction is on the elements that are left. -/
theorem callsAtLeast_feed (hm : m.automaton.Linked) (hP : P.Answers holds)
    (hgreedy : m.greedy = true) (ahead : List α) (h : a.Tracks m holds xs offset)
    (hfits : a.Fits m) (hahead : xs.drop a.position = ahead) {first : Nat}
    (harrives : ∀ k, a.position ≤ k → k < xs.length →
      ∃ q, m.automaton.Arrives holds xs m.automaton.start offset q k)
    (hcomes : ∀ k, first ≤ k → k < xs.length → ComesToPredicate m holds xs offset k) :
    (a.feed P m (some xs.length) ahead).CallsAtLeast (xs.length - max a.position first) := by
  induction ahead generalizing a with
  | nil =>
    have hend := List.drop_eq_nil_iff.1 hahead
    exact (Run.callsAtLeast_pure a).mono (by omega)
  | cons x ahead ih =>
    obtain ⟨hx, hrest⟩ := of_drop_eq_cons hahead
    have hlt := (List.getElem?_eq_some_iff.1 hx).1
    obtain ⟨q, hq⟩ := harrives a.position (Nat.le_refl _) hlt
    have halive := h.alive_of_arrives hgreedy hq
    have hadvance := callsAtLeast_advance hP.neverPanics hfits halive (some xs.length) x
    have hfeed : ((a.advance P m (some xs.length) x) >>=
        feed P m (some xs.length) ahead).CallsAtLeast
          ((m.automaton.handles a.active.toList).length +
            (xs.length - max (a.position + 1) first)) := by
      refine hadvance.bind (ensures_advance_tracks hm hP h hfits halive hx) ?_
      rintro a' ⟨htracks, hfits', hposition⟩
      -- What lies ahead stays the same, and there is one element less of it.
      rw [← hposition]
      refine ih htracks hfits' (by rw [hposition, hrest]) fun k hk hlt => harrives k ?_ hlt
      omega
    rw [feed, if_pos halive]
    refine hfeed.mono ?_
    -- The element at the position counts unless the position is too early.
    by_cases hfirst : first ≤ a.position
    · have hpos := h.handles_length_pos (hcomes a.position hfirst hlt)
      omega
    · omega

end Attempt

namespace Matcher

variable {P : Predicates π α μ ε} {holds : π → α → Bool} {xs : List α} {q : Pattern π}
  {handle : π}

/-- Behind everything that the first part of a sequence spans, the predicate that follows
is evaluated. -/
theorem comesToPredicate_of_spans (handle : π) {offset k : Nat}
    (h : q.Spans holds xs offset k) :
    Attempt.ComesToPredicate (ofPattern (.sequence [q, .predicate handle])) holds xs offset k := by
  obtain ⟨hfirst, hsecond⟩ :=
    Automaton.holds_sequence (Automaton.holds_ofPattern (.sequence [q, .predicate handle]))
  refine ⟨0 + q.stateCount, _, handle, _, ⟨?_, ?_⟩, hsecond.first, List.mem_singleton.2 rfl⟩
  · exact (Automaton.reaches_of_spans q 0 _ offset k hfirst h).trans
      (Automaton.reaches_target hfirst.exit k)
  · exact ⟨_, hsecond.first, rfl⟩

/-- If no element meets the last predicate of a sequence, an attempt finds no match. -/
theorem ensures_lengthAhead_eq_none (hP : P.Answers holds)
    (hnone : ∀ x ∈ xs, holds handle x = false) {offset : Nat} (hoffset : offset ≤ xs.length) :
    ((ofPattern (.sequence [q, .predicate handle])).lengthAhead P offset
      (xs.drop offset)).Ensures (fun _ => False) (· = none) := by
  rw [← lengthAt_of_le hoffset]
  refine (ensures_lengthAt_preferred (Automaton.linked_ofPattern _) hP xs hoffset).mono
    fun best hbest => hbest.none_iff.2 fun n hn => ?_
  obtain ⟨t, -, j, ⟨-, x, hx, hholds⟩, -⟩ := (accepts_ofPattern_iff _ holds xs offset n).1 hn
  rw [hnone x (List.mem_of_getElem? hx)] at hholds
  cases hholds

/-- **One attempt.** If the first part spans everything, the last predicate is evaluated
behind the first element and behind every element after it. -/
theorem callsAtLeast_lengthAhead (handle : π) (hP : P.Answers holds)
    (hgreedy : q.isGreedy = true)
    (hspans : ∀ i j, i < j → j ≤ xs.length → q.Spans holds xs i j) {offset : Nat}
    (hoffset : offset ≤ xs.length) :
    ((ofPattern (.sequence [q, .predicate handle])).lengthAhead P offset
      (xs.drop offset)).CallsAtLeast (xs.length - (offset + 1)) := by
  have hm := Automaton.linked_ofPattern (.sequence [q, .predicate handle])
  have hlong : (ofPattern (.sequence [q, .predicate handle])).greedy = true := by
    simp [ofPattern, Pattern.isGreedy, Pattern.allGreedy, hgreedy]
  obtain ⟨a, hbegin, hfits, hposition, htracks⟩ := Attempt.exists_begin_tracks
    (m := ofPattern (.sequence [q, .predicate handle])) holds hm hoffset
  have hlast : offset + (xs.drop offset).length = xs.length := by
    rw [List.length_drop]
    exact Nat.add_sub_cancel' hoffset
  rw [lengthAhead, Attempt.run, hlast, hbegin, Run.ofChecked_ok_bind]
  refine Run.CallsAtLeast.bind_any ?_ fun a => Run.callsAtLeast_pure a.best
  have hfeed := Attempt.callsAtLeast_feed hm hP hlong (xs.drop offset) htracks hfits
    (by rw [hposition]) (fun k hk hlt => ?_) (fun k (hk : offset + 1 ≤ k) hlt =>
      comesToPredicate_of_spans handle (hspans offset k hk (Nat.le_of_lt hlt)))
  · exact hfeed.mono (by omega)
  · -- A route that arrives behind the next element passes this position.
    rw [hposition] at hk
    obtain ⟨r, -, -, -, hr, -⟩ :=
      comesToPredicate_of_spans handle (hspans offset (k + 1) (Nat.lt_succ_of_le hk) hlt)
    exact hr.exists_before hk (Nat.lt_succ_self k)

end Matcher

/-- **A whole search** makes an attempt at each position, because none of them finds a
match. -/
theorem Search.callsAtLeast_all {P : Predicates π α μ ε} {holds : π → α → Bool} {xs : List α}
    {q : Pattern π} {handle : π} (hP : P.Answers holds) (hgreedy : q.isGreedy = true)
    (hspans : ∀ i j, i < j → j ≤ xs.length → q.Spans holds xs i j)
    (hnone : ∀ x ∈ xs, holds handle x = false)
    (s : Search (Matcher.ofPattern (.sequence [q, .predicate handle])) α)
    (hs : s.ahead = xs.drop s.position) : (s.all P).CallsAtLeast (s.ahead.length.choose 2) := by
  by_cases h : s.ahead = []
  · rw [all_of_ahead_eq_nil P h, h]
    exact Run.callsAtLeast_pure []
  · have hoffset : s.position ≤ xs.length := by
      refine Nat.le_of_not_lt fun hlt => h ?_
      rw [hs, List.drop_eq_nil_iff]
      exact Nat.le_of_lt hlt
    have hlength : s.ahead.length = xs.length - s.position := by rw [hs, List.length_drop]
    have hpast : (s.past none).ahead.length + 1 = s.ahead.length := by
      have := length_past_lt h none
      rw [past, List.length_drop, stride_none] at this ⊢
      omega
    have hattempt := Matcher.callsAtLeast_lengthAhead handle hP hgreedy hspans hoffset
    have hfails := Matcher.ensures_lengthAhead_eq_none (q := q) hP hnone hoffset
    rw [← hs] at hattempt hfails
    rw [all_of_ahead_ne_nil h, ← hpast, Nat.choose_succ_succ', Nat.choose_one_right]
    refine (hattempt.mono (by omega)).bind hfails ?_
    -- The attempt has failed, so the search goes on with the next element.
    rintro _ rfl
    rw [allAfter, Match.taken?_none, Run.ofChecked_ok_bind]
    have hnext : (s.past none).ahead = xs.drop (s.past none).position := by
      rw [past, hs, List.drop_drop]
    exact (callsAtLeast_all hP hgreedy hspans hnone (s.past none) hnext).bind_any
      fun rest => Run.callsAtLeast_pure _
termination_by s.ahead.length
decreasing_by exact length_past_lt h none

namespace Matcher

/-- **A search that is quadratic.** Let a greedy pattern span all of the input and every
piece of it, and let a predicate follow that no element meets. Finding all matches evaluates
predicates at least once for each pair of elements. -/
theorem choose_two_le_calls_allMatches {P : Predicates π α μ ε} {holds : π → α → Bool}
    {xs : List α} {q : Pattern π} {handle : π} (hP : P.Answers holds)
    (hgreedy : q.isGreedy = true)
    (hspans : ∀ i j, i < j → j ≤ xs.length → q.Spans holds xs i j)
    (hnone : ∀ x ∈ xs, holds handle x = false) (env : Env π α μ) :
    env.calls.size + xs.length.choose 2 ≤
      (((ofPattern (.sequence [q, .predicate handle])).allMatches P xs).outcome env).2.calls.size :=
  Search.callsAtLeast_all hP hgreedy hspans hnone (Search.ofList xs) List.drop_zero.symm env

end Matcher

/-! ## The work is not linear -/

namespace Pattern

variable {holds : π → α → Bool} {xs : List α} {i j : Nat}

/-- One copy is one copy or more. -/
theorem spans_plus {p : Pattern π} (h : p.Spans holds xs i j) : p.plus.Spans holds xs i j :=
  ⟨1, Nat.le_refl 1, nofun, j, h, rfl⟩

/-- One element after the other. -/
theorem iterated_predicate {handle : π} (hall : ∀ x ∈ xs, holds handle x = true) {n : Nat}
    (h : i + n ≤ xs.length) :
    Iterated (fun i j => (predicate handle).Spans holds xs i j) n i (i + n) := by
  induction n generalizing i with
  | zero => rfl
  | succ n ih =>
    have hlt : i < xs.length := by omega
    refine ⟨i + 1, ⟨rfl, xs[i], List.getElem?_eq_getElem hlt, hall _ (List.getElem_mem hlt)⟩, ?_⟩
    rw [Nat.add_comm n 1, ← Nat.add_assoc]
    exact ih (by omega)

/-- A predicate that every element meets spans every piece of the input if it is repeated. -/
theorem spans_plus_predicate {handle : π} (hall : ∀ x ∈ xs, holds handle x = true) (hij : i < j)
    (hj : j ≤ xs.length) : (predicate handle).plus.Spans holds xs i j := by
  have hsum : i + (j - i) = j := Nat.add_sub_cancel' (Nat.le_of_lt hij)
  have hpieces := iterated_predicate hall (n := j - i) (hsum.symm ▸ hj)
  rw [hsum] at hpieces
  exact ⟨j - i, by omega, nofun, hpieces⟩

end Pattern

/-- No multiple of the length bounds the number of pairs. -/
theorem mul_lt_choose_two (c : Nat) : c * (2 * c + 4 + 1) < (2 * c + 4).choose 2 := by
  have htwice : (2 * c + 4) * (2 * c + 4 - 1) = 2 * ((c + 2) * (2 * c + 3)) := by
    rw [← Nat.mul_assoc, Nat.mul_add 2 c 2]
    rfl
  rw [Nat.choose_two_right, htwice, Nat.mul_div_cancel_left _ (by decide), Nat.add_mul,
    Nat.mul_add c, Nat.mul_add c, Nat.mul_add c]
  omega

/-- **The work of a search is not linear.** The pattern is one that makes matchers explode
which try one way after the other: `x`, repeated and repeated again, and then `y`. Among
nothing but `x` no attempt finds anything, and none notices before the end of the input. -/
theorem Matcher.not_calls_allMatches_le_linear :
    ¬ ∀ p : Pattern Char, ∃ c, ∀ (holds : Char → Char → Bool) (xs : List Char),
      (((ofPattern p).allMatches (.ofTest holds : Predicates Char Char Unit Unit) xs).outcome
        ⟨(), #[], #[]⟩).2.calls.size ≤ c * (xs.length + 1) := by
  intro hlinear
  -- With `2 * c + 4` elements there are more pairs than the bound allows.
  obtain ⟨c, hc⟩ := hlinear (.sequence [(Pattern.predicate 'x').plus.plus, .predicate 'y'])
  have hx : ∀ x ∈ List.replicate (2 * c + 4) 'x', ('x' == x) = true := by
    intro x hx
    rw [List.eq_of_mem_replicate hx]
    rfl
  have hy : ∀ x ∈ List.replicate (2 * c + 4) 'x', ('y' == x) = false := by
    intro x hx
    rw [List.eq_of_mem_replicate hx]
    rfl
  have hlow := choose_two_le_calls_allMatches (Predicates.answers_ofTest (ε := Unit)
    fun name x : Char => name == x) (q := (Pattern.predicate 'x').plus.plus) rfl
    (fun i j hij hj => Pattern.spans_plus (Pattern.spans_plus_predicate hx hij hj)) hy
    ⟨(), #[], #[]⟩
  have hhigh := hc (fun name x => name == x) (List.replicate (2 * c + 4) 'x')
  rw [List.length_replicate] at hlow hhigh
  have := mul_lt_choose_two c
  change 0 + _ ≤ _ at hlow
  omega

end Motif
