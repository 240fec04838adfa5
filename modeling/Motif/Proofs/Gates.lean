/-
Patterns with an anchor in front or behind.

Behind a pattern, an anchor is a gate in front of the accepting state: no edge that reads
leads to that state, and every silent way to it goes through the gate (`Guarded`). If the
anchor is the one at the end, an attempt finds the accepting state only where the input
ends. So it claims nothing that ends anywhere else, and while the length of the input is not
known it claims nothing at all (`ClaimsEnd`). That is kept by every element that is read,
and a scanner that replaces attempts replaces them by attempts of which it is true again.
Nothing is asked of the pattern in front of the gate. It may contain anchors and loops of
its own, and it may be lazy.

In front of a pattern, the anchor at the start is a gate behind which everything else lies.
At any later position the closure of the start is empty, so an attempt made there is over
before it has read anything (`lengthAhead_of_pos`). What a whole search does is therefore
what its first attempt does.
-/
import Mathlib.Data.List.Forall2
import Motif.Proofs.Deferral
import Motif.Proofs.Mirror
import Motif.Proofs.Streaming

set_option autoImplicit false

namespace Motif

variable {π α μ ε : Type}

/-! ## The accepting state behind a gate -/

namespace Automaton

/-- There is no way to the accepting state but through gates of one kind: a run does not
begin there, no edge that reads leads there, and the states with a silent edge to it have
the anchor. -/
structure Guarded (A : Automaton π) (condition : Anchor) : Prop where
  start_ne : A.start ≠ A.accept
  silent : ∀ q state, A.state? q = some state → A.accept ∈ state.silent →
    state.anchor = some condition
  reading : ∀ q state, A.state? q = some state → ∀ edge ∈ state.reading, edge.2 ≠ A.accept

section Guarded

variable {A : Automaton π} {condition : Anchor} {index : Nat} {length : Option Nat}

/-- The way to the accepting state is open only where the anchor holds. -/
theorem Guarded.holds_of_leads (hA : A.Guarded condition) {q r : Nat}
    (h : A.Leads index length q r) (hq : q ≠ A.accept) (hr : r = A.accept) :
    condition.holds index length = true := by
  induction h with
  | here _ => exact absurd hr hq
  | @onward q t r state hstate hopen ht _ ih =>
    by_cases htarget : t = A.accept
    · -- The edge leads through the gate, and the gate was open.
      have hanchor := hA.silent q state hstate (htarget ▸ ht)
      simpa [State.admits, hanchor] using hopen
    · exact ih htarget hr

/-- A closure has the accepting state only where the anchor holds, unless it was a seed. -/
theorem Guarded.holds_of_mem_closure (hA : A.Guarded condition) {seeds : List Nat} {c : Closure}
    (hc : A.closure seeds index length = .ok c) (hseeds : A.accept ∉ seeds)
    (haccept : A.accept ∈ c.states.toList) : condition.holds index length = true := by
  obtain ⟨q, hq, hleads⟩ := (mem_closure_iff hc).1 haccept
  exact hA.holds_of_leads hleads (fun h => hseeds (h ▸ hq)) rfl

/-- Reading an element never leads to the accepting state. -/
theorem Guarded.ne_of_read (hA : A.Guarded condition) {active : List Nat} {T : Label π → Prop}
    {t : Nat} (h : A.Read active T t) : t ≠ A.accept := by
  obtain ⟨q, -, state, hstate, edge, hedge, rfl, -⟩ := h
  exact hA.reading q state hstate edge hedge

end Guarded

/-- A pattern with an anchor behind it is guarded by the anchor, whatever the pattern is. Its
block leads to the gate, and only the gate leads on. -/
theorem guarded_ofPattern (p : Pattern π) (condition : Anchor) :
    (ofPattern (.sequence [p, .anchor condition])).Guarded condition := by
  -- A state is one of the block's, the gate, or the accepting state behind the gate.
  have hstate : ∀ q state, (ofPattern (.sequence [p, .anchor condition])).state? q = some state →
      state.Confined 0 p.stateCount [p.stateCount] ∨
        state = .gate condition (p.stateCount + 1) ∨ state = .junction [] := by
    intro q state hq
    rw [state?, ofPattern, List.getElem?_toArray] at hq
    have hmem := List.mem_of_getElem? hq
    simp only [Pattern.layout, Pattern.layoutSequence, Nat.zero_add, List.mem_append,
      List.mem_cons, List.not_mem_nil, or_false] at hmem
    refine hmem.imp_left fun hmem => ?_
    have hconfined := Pattern.confined_layout p 0 [p.stateCount] state hmem
    rwa [Nat.zero_add] at hconfined
  have haccept : (ofPattern (.sequence [p, .anchor condition])).accept = p.stateCount + 1 := rfl
  refine ⟨?_, ?_, ?_⟩
  · rw [haccept]
    exact (Nat.succ_ne_zero _).symm
  · intro q state hq hmem
    rw [haccept] at hmem
    rcases hstate q state hq with hconfined | rfl | rfl
    · rcases hconfined.1 _ hmem with hgate | hinside
      · rw [List.mem_singleton] at hgate
        omega
      · omega
    · rfl
    · cases hmem
  · intro q state hq edge hedge
    rw [haccept]
    rcases hstate q state hq with hconfined | rfl | rfl
    · have hinside := hconfined.2 edge hedge
      omega
    · cases hedge
    · cases hedge

end Automaton

/-! ## Attempts behind which the input has to end -/

namespace Attempt

/-- The attempt has not been led to the accepting state, and what it claims ends where the
input ends. While the length is not known it claims nothing. -/
structure ClaimsEnd (m : Matcher π) (length : Option Nat) (a : Attempt) : Prop where
  accept_not_mem : m.automaton.accept ∉ a.seeds.toList
  length_eq : ∀ n, a.best = some n → length = some (a.start + n)

section ClaimsEnd

variable {m : Matcher π} {length : Option Nat} {a : Attempt} {may : ε → Prop}
  {P : Predicates π α μ ε}

theorem ClaimsEnd.best_eq_none (h : a.ClaimsEnd m none) : a.best = none := by
  cases hbest : a.best with
  | none => rfl
  | some n => exact absurd (h.length_eq n hbest) (Option.some_ne_none _).symm

/-- **Bringing the closure up to date.** Whatever is claimed anew ends at the position, and
the gate is open there only if the input ends there too. -/
theorem ClaimsEnd.withClosure (hA : m.automaton.Guarded .atEnd) (h : a.ClaimsEnd m length)
    (hstart : a.start ≤ a.position) {c : Closure}
    (hc : m.automaton.closure a.seeds.toList a.position length = .ok c) :
    (a.withClosure m c).ClaimsEnd m length := by
  refine ⟨h.accept_not_mem, fun n hn => ?_⟩
  change a.bestGiven m c = some n at hn
  change length = some (a.start + n)
  unfold bestGiven at hn
  split at hn
  · rename_i haccept
    have hholds := hA.holds_of_mem_closure hc h.accept_not_mem haccept
    cases hn
    rw [Nat.add_sub_cancel' hstart]
    simpa using hholds
  · exact h.length_eq n hn

theorem exists_begin_claimsEnd (hm : m.automaton.Linked) (hA : m.automaton.Guarded .atEnd)
    (length : Option Nat) (start : Nat) :
    ∃ a, begin m length start = .ok a ∧ a.Fits m ∧ a.ClaimsEnd m length := by
  obtain ⟨c, hc, hbegin, hfits⟩ := exists_refresh_fresh_eq_ok hm length start
  rw [← toList_seeds_fresh m start] at hc
  have hnew : (fresh m start).ClaimsEnd m length :=
    ⟨by simpa using hA.start_ne.symm, fun n hn => absurd hn (Option.some_ne_none n).symm⟩
  exact ⟨_, hbegin, hfits, hnew.withClosure hA (Nat.le_refl start) hc⟩

/-- **One element.** -/
theorem ensures_advance_claimsEnd (hm : m.automaton.Linked) (hA : m.automaton.Guarded .atEnd)
    (hP : P.PanicsOnly may) (x : α) (hfits : a.Fits m) (h : a.ClaimsEnd m length)
    (halive : a.alive = true) :
    (a.advance P m length x).Ensures may fun a' => a'.Fits m ∧ a'.ClaimsEnd m length := by
  refine ensures_advance_of hm (Label.metWithin_all hP) hfits halive fun seeds c hread _ hc hfits' =>
    ⟨hfits', ?_⟩
  have hnext : ({ a with seeds, position := a.position + 1 } : Attempt).ClaimsEnd m length :=
    ⟨fun hmem => hA.ne_of_read (hread _ hmem) rfl, h.length_eq⟩
  exact hnext.withClosure hA (Nat.le_succ_of_le hfits.start_le) hc

theorem ensures_feed_claimsEnd (hm : m.automaton.Linked) (hA : m.automaton.Guarded .atEnd)
    (hP : P.PanicsOnly may) (xs : List α) (hfits : a.Fits m) (h : a.ClaimsEnd m length) :
    (a.feed P m length xs).Ensures may (ClaimsEnd m length) := by
  have hfeed := ensures_feed_of (I := fun a => a.Fits m ∧ a.ClaimsEnd m length) length
    (fun _ x ⟨hfits, h⟩ halive => ensures_advance_claimsEnd hm hA hP x hfits h halive) xs
    ⟨hfits, h⟩
  exact hfeed.mono fun a' h' => h'.2

/-- **A run of an attempt** claims nothing but what ends with the input. -/
theorem ensures_run_claimsEnd (hm : m.automaton.Linked) (hA : m.automaton.Guarded .atEnd)
    (hP : P.PanicsOnly may) (length : Option Nat) (start : Nat) (ahead : List α) :
    (run P m length start ahead).Ensures may (ClaimsEnd m length) := by
  obtain ⟨a, hbegin, hfits, h⟩ := exists_begin_claimsEnd hm hA length start
  rw [run, hbegin, Run.ofChecked_ok_bind]
  exact ensures_feed_claimsEnd hm hA hP ahead hfits h

end ClaimsEnd

end Attempt

/-! ## Searches -/

section Search

variable {m : Matcher π} {may : ε → Prop} {P : Predicates π α μ ε}

/-- A match behind which the input has to end takes all that lies ahead. -/
theorem Matcher.ensures_lengthAhead_guarded (hm : m.automaton.Linked)
    (hA : m.automaton.Guarded .atEnd) (hP : P.PanicsOnly may) (position : Nat) (ahead : List α) :
    (m.lengthAhead P position ahead).Ensures may fun best =>
      ∀ n, best = some n → n = ahead.length := by
  have hrun := (Attempt.ensures_run hm hP (some (position + ahead.length)) position ahead).and
    (Attempt.ensures_run_claimsEnd hm hA hP (some (position + ahead.length)) position ahead)
  refine hrun.bind ?_
  rintro a ⟨⟨-, hstart, -⟩, hclaims⟩
  refine Run.ensures_pure fun n hn => ?_
  have hend := Option.some.inj (hclaims.length_eq n hn)
  omega

/-- **A whole search.** All that it finds ends with the input. -/
theorem Search.ensures_all_guarded (hm : m.automaton.Linked) (hA : m.automaton.Guarded .atEnd)
    (hP : P.PanicsOnly may) (s : Search m α) :
    (s.all P).Ensures may fun found => ∀ f ∈ found, f.last + 1 = s.position + s.ahead.length := by
  by_cases h : s.ahead = []
  · rw [all_of_ahead_eq_nil P h]
    exact Run.ensures_pure (by simp)
  · rw [all_of_ahead_ne_nil h]
    refine (Matcher.ensures_lengthAhead_guarded hm hA hP _ _).bind ?_
    intro best hbest
    have hle : ∀ n, best = some n → n ≤ s.ahead.length := fun n hn => Nat.le_of_eq (hbest n hn)
    obtain ⟨taken, htaken, -⟩ := Match.exists_taken?_eq_ok s.position hle
    rw [allAfter, htaken, Run.ofChecked_ok_bind]
    refine (ensures_all_guarded hm hA hP (s.past best)).bind ?_
    intro rest hrest
    rw [position_past_add_length h hle] at hrest
    refine Run.ensures_pure fun f hf => ?_
    rcases List.mem_append.1 hf with hf | hf
    · -- The match of this attempt takes all that lies ahead.
      rw [Option.mem_toList.1 hf] at htaken
      obtain ⟨hsome, -, -, hlast, -⟩ := Match.of_taken?_eq_some htaken
      rw [hlast, hbest _ hsome]
    · exact hrest f hf
termination_by s.ahead.length
decreasing_by exact length_past_lt h best

/-- Of matches that lie behind one another, only one can end with the input. -/
theorem Match.Ordered.length_le_one {low high : Nat} {found : List (Match α)}
    (h : Match.Ordered low high found) (hend : ∀ f ∈ found, f.last + 1 = high) :
    found.length ≤ 1 := by
  match found with
  | [] => exact Nat.zero_le 1
  | [_] => exact Nat.le_refl 1
  | f :: g :: rest =>
    obtain ⟨-, -, hbehind, hle, -⟩ := h
    have hf := hend f (by simp)
    have hg := hend g (by simp)
    omega

end Search

/-! ## Scanners -/

namespace Scanner

section ClaimsEnd

variable {m : Matcher π} {s : Scanner m α} {may : ε → Prop} {P : Predicates π α μ ε}

theorem Sound.ensures_emit_none (h : s.Sound) (hbest : s.attempt.best = none) :
    (s.emit : Run π α μ ε (Option (Match α))).Ensures may (· = none) := by
  have hnone : Match.taken? s.start s.pending s.attempt.best = .ok none := by
    rw [hbest, Match.taken?_none]
  exact (Run.ensures_ofChecked (Q := (· = none)) hnone rfl).of_alike h.alike_emit
    Env.SameButLog.refl

theorem ensures_catchUp_claimsEnd (hm : m.automaton.Linked) (hA : m.automaton.Guarded .atEnd)
    (hP : P.PanicsOnly may) (h : s.Counted) :
    (s.catchUp P none).Ensures may (Attempt.ClaimsEnd m none) := by
  have hretry : (s.retry P none).Ensures may (Attempt.ClaimsEnd m none) :=
    (Attempt.ensures_run_claimsEnd hm hA hP none s.start s.pending).bind fun _ ha =>
      Run.ensures_pure ha
  exact hretry.of_alike (h.alike_catchUp P none) Env.SameButLog.refl

/-- **The loop of replacements.** An attempt that claims nothing is replaced by one that
claims nothing, and nothing comes out. -/
theorem ensures_replaceDead_claimsEnd (hm : m.automaton.Linked)
    (hA : m.automaton.Guarded .atEnd) (hP : P.PanicsOnly may) (s : Scanner m α) (h : s.Sound)
    (hclaims : s.attempt.ClaimsEnd m none) :
    (s.replaceDead P none).Ensures may fun result =>
      result.1 = [] ∧ result.2.attempt.ClaimsEnd m none := by
  fun_induction replaceDead P none s with
  | case1 s _ => exact Run.ensures_pure ⟨rfl, hclaims⟩
  | case2 s _ _ => exact Run.ensures_pure ⟨rfl, hclaims⟩
  | case3 s _ hle ih =>
    have hpast := h.counted_past (Nat.not_le.1 hle)
    refine (h.ensures_emit_none hclaims.best_eq_none).bind ?_
    rintro _ rfl
    refine ((ensures_catchUp hm hP none hpast).and
      (ensures_catchUp_claimsEnd hm hA hP hpast)).bind ?_
    rintro attempt ⟨⟨hsound, -⟩, hattempt⟩
    refine (ih attempt hsound hattempt).bind ?_
    rintro later ⟨hnil, hlast⟩
    exact Run.ensures_pure ⟨hnil, hlast⟩

theorem ensures_moveOn_claimsEnd (hm : m.automaton.Linked) (hA : m.automaton.Guarded .atEnd)
    (hP : P.PanicsOnly may) (h : s.Sound) (hreplayed : Replayed P s)
    (hclaims : s.attempt.ClaimsEnd m none) :
    (s.moveOn P none).Ensures may fun result =>
      result.1 = [] ∧ result.2.attempt.ClaimsEnd m none := by
  refine ((ensures_replaceDead hm hP none s h (fun hsome => absurd hsome Bool.false_ne_true)
    fun _ => hreplayed).and (ensures_replaceDead_claimsEnd hm hA hP s h hclaims)).bind ?_
  rintro ⟨found, s'⟩ ⟨hreplaced, hnil, hlast⟩
  refine (Run.ensures_ofChecked (Q := (· = s'.trimmed)) hreplaced.sound.trim_eq rfl).bind ?_
  rintro _ rfl
  exact Run.ensures_pure ⟨hnil, hlast⟩

/-- **A push** returns nothing, and what was true of the attempt is true of the next one. -/
theorem ensures_push_claimsEnd (hm : m.automaton.Linked) (hA : m.automaton.Guarded .atEnd)
    (hP : P.PanicsOnly may) (x : α) (h : AtRest P s) (hopen : s.ended = false)
    (hclaims : s.attempt.ClaimsEnd m none) :
    (s.push P x).Ensures may fun result =>
      result.1 = [] ∧ result.2.attempt.ClaimsEnd m none := by
  rw [push_eq P x hopen]
  refine ((ensures_receive hm hP x h hopen).and
    (Attempt.ensures_feed_claimsEnd hm hA hP [x] h.fits hclaims)).bind ?_
  rintro a ⟨⟨hsound, hreplayed⟩, hattempt⟩
  exact ensures_moveOn_claimsEnd hm hA hP hsound hreplayed hattempt

/-- **One call.** -/
theorem ensures_call_claimsEnd (hm : m.automaton.Linked) (hA : m.automaton.Guarded .atEnd)
    (hP : P.PanicsOnly may) (c : Call α) (h : AtRest P s)
    (hclaims : s.ended = false → s.attempt.ClaimsEnd m none) :
    (s.call P c).Ensures may fun result =>
      (c ≠ .close → result.1 = []) ∧
        (result.2.ended = false → result.2.attempt.ClaimsEnd m none) := by
  cases c with
  | push x =>
    by_cases hended : s.ended = true
    · refine (ensures_push_of_ended x hended).mono ?_
      rintro _ rfl
      exact ⟨fun _ => rfl, hclaims⟩
    · have hopen : s.ended = false := Bool.eq_false_iff.2 hended
      refine (ensures_push_claimsEnd hm hA hP x h hopen (hclaims hopen)).mono ?_
      rintro result ⟨hnil, hlast⟩
      exact ⟨fun _ => hnil, fun _ => hlast⟩
  | close =>
    refine (ensures_call hm hP h .close).mono fun result hhandled => ⟨fun hne => absurd rfl hne, ?_⟩
    intro hopen
    rw [hhandled.ended_iff.2 (Or.inr (List.mem_singleton_self _))] at hopen
    cases hopen

/-- **Any calls.** No call returns a match but the one that tells the end. -/
theorem ensures_eachCall_claimsEnd (hm : m.automaton.Linked) (hA : m.automaton.Guarded .atEnd)
    (hP : P.PanicsOnly may) (cs : List (Call α)) (h : AtRest P s)
    (hclaims : s.ended = false → s.attempt.ClaimsEnd m none) :
    (s.eachCall P cs).Ensures may (List.Forall₂ (fun c found => c ≠ .close → found = []) cs) := by
  induction cs generalizing s with
  | nil => exact Run.ensures_pure .nil
  | cons c cs ih =>
    refine ((ensures_call hm hP h c).and (ensures_call_claimsEnd hm hA hP c h hclaims)).bind ?_
    rintro ⟨found, t⟩ ⟨hhandled, hnil, hlast⟩
    refine (ih hhandled.rest hlast).bind ?_
    intro later hlater
    exact Run.ensures_pure (.cons hnil hlater)

end ClaimsEnd

/-- Pushing elements and telling the end are calls. -/
theorem eachCall_push_close {m : Matcher π} (P : Predicates π α μ ε) (xs : List α)
    (s : Scanner m α) :
    s.eachCall P (xs.map .push ++ [.close]) = (do
      let (found, s) ← s.pushEach P xs
      let (rest, _) ← s.close P
      return found ++ [rest]) := by
  induction xs generalizing s with
  | nil =>
    simp only [List.map_nil, List.nil_append, eachCall, call, pushEach, pure_bind]
  | cons x xs ih =>
    simp only [List.map_cons, List.cons_append, eachCall, call, pushEach, ih, bind_assoc, pure_bind]

end Scanner

namespace Matcher

variable {m : Matcher π} {may : ε → Prop} {P : Predicates π α μ ε}

/-- Walking an input once is making the calls and putting together what they return. -/
theorem allMatchesOnce_eq_replies (m : Matcher π) (P : Predicates π α μ ε) (input : List α) :
    m.allMatchesOnce P input = (do
      let replies ← m.replies P (input.map .push ++ [.close])
      return replies.flatten) := by
  simp only [allMatchesOnce, replies, Scanner.eachCall_push_close, bind_assoc, pure_bind,
    List.flatten_append, List.flatten_cons, List.flatten_nil, List.append_nil]

theorem ensures_replies_guarded (hm : m.automaton.Linked) (hA : m.automaton.Guarded .atEnd)
    (hP : P.PanicsOnly may) (cs : List (Call α)) :
    (m.replies P cs).Ensures may
      (List.Forall₂ (fun c found => c ≠ .close → found = []) cs) := by
  obtain ⟨s, hbegin, hrest, -, -, -, -, hattempt⟩ := Scanner.exists_begin_eq_ok (α := α) hm P
  obtain ⟨a, hbegin', -, hclaims⟩ := Attempt.exists_begin_claimsEnd hm hA none 0
  rw [hattempt] at hbegin'
  cases hbegin'
  rw [replies, scanner, hbegin, Run.ofChecked_ok_bind]
  exact Scanner.ensures_eachCall_claimsEnd hm hA hP cs hrest fun _ => hclaims

/-- If all calls but the last one return nothing, the last one returns everything. -/
theorem replies_eq_of_forall₂ {input : List α} {replies : List (List (Match α))}
    (h : List.Forall₂ (fun c found => c ≠ Call.close → found = [])
      (input.map Call.push ++ [Call.close]) replies) :
    replies = List.replicate input.length [] ++ [replies.flatten] := by
  induction input generalizing replies with
  | nil =>
    cases h with
    | cons _ hrest =>
      cases hrest
      simp
  | cons x xs ih =>
    cases h with
    | cons hfirst hrest =>
      rw [hfirst fun hclose => by cases hclose]
      exact congrArg _ (ih hrest)

end Matcher

/-! ## A gate in front -/

namespace Automaton

variable {A : Automaton π}

/-- A gate at the start is closed at every later position, and it waits for nothing. -/
theorem Anchored.closure_eq_of_pos {q : Nat} (h : A.Anchored .atStart q) {index : Nat}
    (hindex : 0 < index) (length : Option Nat) : A.closure [q] index length = .ok {} := by
  obtain ⟨state, hstate, hanchor⟩ := h
  have hshut : ¬ state.admits index length = true := by
    simp [State.admits, hanchor, Nat.ne_of_gt hindex]
  have hawaits : state.awaitsLength length = false := by
    simp [State.awaitsLength, hanchor, Anchor.awaitsLength]
  rw [closure, explore_cons_shut (by simp [StateSet.mem_iff_mem_toList])
    (by simp [StateSet.mem_iff_mem_toList]) hstate hshut, explore, hawaits]
  rfl

/-- A pattern with an anchor in front of it begins at the gate. -/
theorem anchored_ofPattern (p : Pattern π) (condition : Anchor) :
    (ofPattern (.sequence [.anchor condition, p])).Anchored condition
      (ofPattern (.sequence [.anchor condition, p])).start :=
  ⟨.gate condition 1, rfl, rfl⟩

end Automaton

section Anchored

variable {m : Matcher π}

/-- At a later position there is no match, and nothing is evaluated to find that out. -/
theorem Matcher.lengthAhead_of_pos (h : m.automaton.Anchored .atStart m.automaton.start)
    (P : Predicates π α μ ε) {position : Nat} (hposition : 0 < position) (ahead : List α) :
    m.lengthAhead P position ahead = pure none := by
  have hclosure : m.automaton.closure (Attempt.fresh m position).seeds.toList position
      (some (position + ahead.length)) = .ok {} := by
    rw [Attempt.toList_seeds_fresh]
    exact h.closure_eq_of_pos hposition _
  have hbegin := Attempt.refresh_of_closure (a := Attempt.fresh m position)
    (Nat.le_refl position) hclosure
  -- No state is active and none may open, so the attempt is dead.
  have hdead : ((Attempt.fresh m position).withClosure m {}).alive = false := by
    simp [Attempt.withClosure, Attempt.settled]
  have hbest : ((Attempt.fresh m position).withClosure m {}).best = none := by
    simp [Attempt.withClosure, Attempt.settled, Attempt.bestGiven]
  rw [lengthAhead, Attempt.run, Attempt.begin_eq, hbegin, Run.ofChecked_ok_bind,
    Attempt.feed_of_dead P m _ ahead hdead, pure_bind, hbest]

/-- From a later position on nothing is found and nothing is evaluated. -/
theorem Search.all_of_pos (h : m.automaton.Anchored .atStart m.automaton.start)
    (P : Predicates π α μ ε) (s : Search m α) (hposition : 0 < s.position) :
    s.all P = pure [] := by
  by_cases hahead : s.ahead = []
  · exact all_of_ahead_eq_nil P hahead
  · rw [all_of_ahead_ne_nil hahead, Matcher.lengthAhead_of_pos h P hposition, pure_bind, allAfter,
      Match.taken?_none, Run.ofChecked_ok_bind,
      all_of_pos h P (s.past none) (Nat.lt_of_lt_of_le hposition (Nat.le_add_right _ _)), pure_bind]
    rfl
termination_by s.ahead.length
decreasing_by exact length_past_lt hahead none

/-- **A whole search** is its first attempt. -/
theorem Matcher.allMatches_of_anchored (hm : m.automaton.Linked)
    (h : m.automaton.Anchored .atStart m.automaton.start) (P : Predicates π α μ ε)
    (input : List α) :
    m.allMatches P input = (do
      let best ← m.lengthAt P input 0
      let taken ← Run.ofChecked (Match.taken? 0 input best)
      return taken.toList) := by
  have hpast : ∀ best, ((Search.ofList input : Search m α).past best).all P = pure [] :=
    fun best => Search.all_of_pos h P _ (Nat.lt_of_lt_of_le (one_le_stride best)
      (Nat.le_add_left _ _))
  rw [allMatches, Search.all_eq hm, lengthAt, if_pos (Nat.zero_le _), List.drop_zero]
  refine congrArg _ (funext fun best => ?_)
  rw [Search.allAfter, hpast]
  simp only [pure_bind, List.append_nil]
  rfl

end Anchored

/-! ## Both gates -/

namespace Matcher

/-- What walking an input once does is what the calls do. -/
theorem outcome_allMatchesOnce_of_replies {m : Matcher π} {P : Predicates π α μ ε}
    {input : List α} {env after : Env π α μ} {replies : List (List (Match α))}
    (h : (m.replies P (input.map .push ++ [.close])).outcome env = (.ok replies, after)) :
    (m.allMatchesOnce P input).outcome env = (.ok replies.flatten, after) := by
  rw [allMatchesOnce_eq_replies, Run.outcome_bind_of_ok h]
  rfl

/-- What a search finds is what the calls return, by the same evaluations. -/
theorem exists_replies_eq_ok {m : Matcher π} (hm : m.automaton.Linked) {P : Predicates π α μ ε}
    (hP : P.NeverPanics) {input : List α} {env after : Env π α μ} {found : List (Match α)}
    (hfound : (m.allMatches P input).outcome env = (.ok found, after)) :
    ∃ replies after',
      (m.replies P (input.map .push ++ [.close])).outcome env = (.ok replies, after') ∧
      replies.flatten = found ∧ after'.SameButLog after := by
  obtain ⟨replies, after', hrun, -⟩ :=
    (ensures_replies hm hP (input.map Call.push ++ [Call.close])).exists_outcome env
  have honce := outcome_allMatchesOnce_of_replies hrun
  obtain ⟨hsame, hafter⟩ := alike_allMatchesOnce hm P input env env (Env.SameButLog.refl env)
  rw [honce, hfound] at hsame hafter
  exact ⟨replies, after', hrun, Except.ok.inj hsame, hafter⟩

/-- A match that is taken by the first attempt begins where the input begins. -/
theorem exists_allMatches_of_anchored {m : Matcher π} (hm : m.automaton.Linked)
    (h : m.automaton.Anchored .atStart m.automaton.start) {P : Predicates π α μ ε}
    (hP : P.NeverPanics) (input : List α) (env : Env π α μ) :
    ∃ best found after, (m.lengthAt P input 0).outcome env = (.ok best, after) ∧
      (m.allMatches P input).outcome env = (.ok found, after) ∧
      found.length ≤ 1 ∧ ∀ f ∈ found, f.first = 0 := by
  obtain ⟨best, after, hbest, hle⟩ := (ensures_lengthAhead hm hP 0 input).exists_outcome env
  have hlength : (m.lengthAt P input 0).outcome env = (.ok best, after) := by
    rw [lengthAt, if_pos (Nat.zero_le _), List.drop_zero, hbest]
  obtain ⟨taken, htaken, -⟩ := Match.exists_taken?_eq_ok 0 hle
  refine ⟨best, taken.toList, after, hlength, ?_, ?_, ?_⟩
  · rw [allMatches_of_anchored hm h, Run.outcome_bind_of_ok hlength, htaken]
    rfl
  · cases taken <;> simp
  · intro f hf
    rw [Option.mem_toList.1 hf] at htaken
    exact (Match.of_taken?_eq_some htaken).2.2.1

/-- **Anchored patterns.** Let `p` be any pattern, and let no predicate panic.

With the anchor at the end behind `p`, whatever calls are made to a scanner, none returns a
match but the one that tells the end. A search finds one match at most, and its last position
is the last one of the input; pushing the input and telling the end comes to the same, and
all of it is returned at the end.

With the anchor at the start in front of `p`, a search finds one match at most, and it begins
at position 0. The search makes the evaluations of one attempt at position 0, it makes no
others, and it leaves the memory that the attempt leaves. The same is true of pushing the
input and telling the end. -/
theorem exists_found_of_gated (p : Pattern π) {P : Predicates π α μ ε} (hP : P.NeverPanics) :
    (∀ (cs : List (Call α)) (env : Env π α μ), ∃ replies,
      (((ofPattern (.sequence [p, .anchor .atEnd])).replies P cs).outcome env).1 = .ok replies ∧
        List.Forall₂ (fun c found => c ≠ .close → found = []) cs replies) ∧
    (∀ (input : List α) (env : Env π α μ), ∃ found,
      (((ofPattern (.sequence [p, .anchor .atEnd])).allMatches P input).outcome env).1 =
        .ok found ∧
      (((ofPattern (.sequence [p, .anchor .atEnd])).replies P
        (input.map .push ++ [.close])).outcome env).1 =
          .ok (List.replicate input.length [] ++ [found]) ∧
      found.length ≤ 1 ∧ ∀ f ∈ found, f.last + 1 = input.length) ∧
    ∀ (input : List α) (env : Env π α μ), ∃ best found replies after after',
      ((ofPattern (.sequence [.anchor .atStart, p])).lengthAt P input 0).outcome env =
        (.ok best, after) ∧
      ((ofPattern (.sequence [.anchor .atStart, p])).allMatches P input).outcome env =
        (.ok found, after) ∧
      ((ofPattern (.sequence [.anchor .atStart, p])).replies P
        (input.map .push ++ [.close])).outcome env = (.ok replies, after') ∧
      replies.flatten = found ∧ after'.calls = after.calls ∧ after'.memory = after.memory ∧
      found.length ≤ 1 ∧ ∀ f ∈ found, f.first = 0 := by
  have hend := Automaton.guarded_ofPattern p .atEnd
  have hstart := Automaton.anchored_ofPattern p .atStart
  have hm := Automaton.linked_ofPattern (.sequence [p, .anchor .atEnd])
  have hm' := Automaton.linked_ofPattern (.sequence [.anchor .atStart, p])
  have hpushes := fun cs => ensures_replies_guarded (α := α)
    (m := ofPattern (.sequence [p, .anchor .atEnd])) hm hend hP cs
  refine ⟨fun cs env => (hpushes cs).exists_ok env, fun input env => ?_, fun input env => ?_⟩
  · have hall := (Search.ensures_all (m := ofPattern (.sequence [p, .anchor .atEnd])) hm hP
      (Search.ofList input) List.drop_zero.symm).and (Search.ensures_all_guarded hm hend hP _)
    obtain ⟨found, hfound, ⟨hordered, -⟩, hlast⟩ := hall.exists_ok env
    rw [show (Search.ofList input : Search _ α).position +
      (Search.ofList input : Search _ α).ahead.length = input.length from Nat.zero_add _]
      at hordered hlast
    refine ⟨found, hfound, ?_, hordered.length_le_one hlast, hlast⟩
    -- All that the calls return is returned by the last one.
    obtain ⟨replies, after', hreplies, hflatten, -⟩ :=
      exists_replies_eq_ok (m := ofPattern (.sequence [p, .anchor .atEnd])) hm hP
        (Prod.ext hfound rfl)
    have hquiet := (hpushes _).returns env replies (congrArg Prod.fst hreplies)
    rw [hreplies, ← hflatten]
    exact congrArg Except.ok (replies_eq_of_forall₂ hquiet)
  · obtain ⟨best, found, after, hbest, hfound, hone, hfirst⟩ :=
      exists_allMatches_of_anchored (m := ofPattern (.sequence [.anchor .atStart, p]))
        hm' hstart hP input env
    obtain ⟨replies, after', hreplies, hflatten, hafter⟩ :=
      exists_replies_eq_ok (m := ofPattern (.sequence [.anchor .atStart, p])) hm' hP hfound
    exact ⟨best, found, replies, after, after', hbest, hfound, hreplies, hflatten, hafter.calls,
      hafter.memory, hone, hfirst⟩

/-- One or more ones at the end of four bits, the fewer the better. The match that ends
earlier is passed over, and the last two bits are found. -/
theorem exists_found_of_gated_ones :
    (Predicates.ofTest (fun _ b => b) : Predicates Unit Bool Unit Unit).NeverPanics ∧
      ∃ found, (((ofPattern (.sequence [(Pattern.predicate ()).repeatedLazily 1 none,
            .anchor .atEnd])).allMatches
          (.ofTest (fun _ b => b) : Predicates Unit Bool Unit Unit)
          [true, false, true, true]).outcome ⟨(), #[], #[]⟩).1 = .ok found ∧
        found = [⟨2, 3, [true, true]⟩] ∧ found.length ≤ 1 ∧ ∀ f ∈ found, f.last + 1 = 4 := by
  have hnever := (Predicates.answers_ofTest (μ := Unit) (ε := Unit)
    (fun (_ : Unit) (b : Bool) => b)).neverPanics
  obtain ⟨-, hend, -⟩ := exists_found_of_gated (α := Bool)
    ((Pattern.predicate ()).repeatedLazily 1 none) hnever
  obtain ⟨found, hfound, -, hone, hlast⟩ := hend [true, false, true, true] ⟨(), #[], #[]⟩
  refine ⟨hnever, found, hfound, ?_, hone, hlast⟩
  have hruns : (((ofPattern (.sequence [(Pattern.predicate ()).repeatedLazily 1 none,
      .anchor .atEnd])).allMatches (.ofTest (fun _ b => b) : Predicates Unit Bool Unit Unit)
      [true, false, true, true]).outcome ⟨(), #[], #[]⟩).1 = .ok [⟨2, 3, [true, true]⟩] := by
    decide +kernel
  exact Except.ok.inj (hfound.symm.trans hruns)

end Matcher

end Motif
