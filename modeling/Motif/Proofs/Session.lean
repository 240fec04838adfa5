/-
Whatever is asked, nothing goes wrong inside.

The code checks its preconditions as it runs: that a state exists, that a position is
never subtracted from a smaller one, that a piece of a buffer lies within the buffer,
that only a living attempt is advanced, that an attempt is concluded at the end and not
before. Each of these checks stops the run with a fault. What is shown here is that no
check ever fails, for everything that can be asked of a matcher and of the searches and
scanners that are opened with it, in any order and as often as one likes
(`Session.exists_handle_eq_ok`). There is one exception: asking for a match at an offset
past the end of the input is refused, and nothing has happened by then.

The invariant of a session is that all of its scanners are at rest. A search needs none:
wherever it stands, it can be asked for its next match.
-/
import Motif.Proofs.Calls
import Motif.Proofs.FirstMatch

set_option autoImplicit false

namespace Motif

variable {π α μ ε : Type}

/-! ## Requests -/

/-- What can be asked of a matcher, and of what was opened with it. -/
inductive Request (α : Type) where
  | allMatches (input : List α)
  | firstMatch (input : List α)
  | hasMatch (input : List α)
  | lengthAt (input : List α) (offset : Nat)
  | allMatchesOnce (input : List α)
  | firstMatchOnce (input : List α)
  | hasMatchOnce (input : List α)
  /-- Opens a search. -/
  | search (input : List α)
  /-- Asks an open search for its next match. -/
  | next (which : Nat)
  /-- Opens a scanner. -/
  | scanner
  /-- Makes a call to an open scanner. -/
  | call (which : Nat) (c : Call α)
deriving DecidableEq, Repr

/-- What comes back. -/
inductive Answer (α : Type) where
  | found (fs : List (Match α))
  | length (best : Option Nat)
  | decision (holds : Bool)
  | opened
  /-- There is no search or no scanner of this number. -/
  | absent
deriving DecidableEq, Repr

/-- The matches of an answer. -/
def Answer.toList : Answer α → List (Match α)
  | found fs => fs
  | length _ => []
  | decision _ => []
  | opened => []
  | absent => []

/-- The searches and scanners that were opened with the matcher `m`. -/
structure Session (m : Matcher π) (α : Type) where
  searches : List (Search m α) := []
  scanners : List (Scanner m α) := []

namespace Session

variable {m : Matcher π}

/-- Answers a request. -/
def handle (P : Predicates π α μ ε) (s : Session m α) :
    Request α → Run π α μ ε (Answer α × Session m α)
  | .allMatches input => do
    let found ← m.allMatches P input
    return (.found found, s)
  | .firstMatch input => do
    let first ← m.firstMatch P input
    return (.found first.toList, s)
  | .hasMatch input => do
    let holds ← m.hasMatch P input
    return (.decision holds, s)
  | .lengthAt input offset => do
    let best ← m.lengthAt P input offset
    return (.length best, s)
  | .allMatchesOnce input => do
    let found ← m.allMatchesOnce P input
    return (.found found, s)
  | .firstMatchOnce input => do
    let (first, _) ← m.firstMatchOnce P input
    return (.found first.toList, s)
  | .hasMatchOnce input => do
    let holds ← m.hasMatchOnce P input
    return (.decision holds, s)
  | .search input => return (.opened, { s with searches := s.searches ++ [.ofList input] })
  | .next which =>
    match s.searches[which]? with
    | none => return (.absent, s)
    | some search => do
      let (first, search) ← search.step P
      return (.found first.toList, { s with searches := s.searches.set which search })
  | .scanner => do
    let scanner ← m.scanner
    return (.opened, { s with scanners := s.scanners ++ [scanner] })
  | .call which c =>
    match s.scanners[which]? with
    | none => return (.absent, s)
    | some scanner => do
      let (found, scanner) ← scanner.call P c
      return (.found found, { s with scanners := s.scanners.set which scanner })

/-- Answers requests one after the other. A request that is aborted leaves the session as
it was, and the next one is answered all the same. -/
def handleAll (P : Predicates π α μ ε) :
    List (Request α) → Session m α → StateM (Env π α μ) (Session m α)
  | [], s => pure s
  | r :: rs, s => do
    match ← (s.handle P r).run with
    | .ok (_, s) => handleAll P rs s
    | .error _ => handleAll P rs s

end Session

/-! ## No match is empty -/

namespace Scanner

open Run

variable {m : Matcher π} {P : Predicates π α μ ε}

theorem returns_emit (s : Scanner m α) :
    (s.emit : Run π α μ ε (Option (Match α))).Returns fun taken =>
      ∀ f ∈ taken.toList, f.elements ≠ [] := by
  by_cases hstart : s.attempt.start ≠ s.start
  · rw [emit, if_pos hstart]
    exact returns_fail _
  · rw [emit, if_neg hstart]
    refine returns_bind fun elements => ?_
    refine (returns_ofChecked fun taken htaken => htaken).bind fun taken htaken => ?_
    cases taken with
    | none => exact returns_pure (by simp)
    | some found =>
      refine returns_bind fun _ => returns_pure ?_
      rintro f hf
      rw [Option.toList_some, List.mem_singleton] at hf
      rw [hf]
      exact Match.elements_ne_nil_of_taken? htaken

theorem returns_replaceDead (P : Predicates π α μ ε) (length : Option Nat) (s : Scanner m α) :
    (s.replaceDead P length).Returns fun result => ∀ f ∈ result.1, f.elements ≠ [] := by
  fun_induction replaceDead P length s with
  | case1 s _ => exact returns_pure (by simp)
  | case2 s _ _ => exact returns_pure (by simp)
  | case3 s _ _ ih =>
    refine (returns_emit s).bind fun taken htaken => ?_
    refine returns_bind fun attempt => ?_
    refine (ih attempt).bind fun later hlater => returns_pure ?_
    intro f hf
    exact (List.mem_append.1 hf).elim (htaken f) (hlater f)

theorem returns_moveOn (P : Predicates π α μ ε) (length : Option Nat) (s : Scanner m α) :
    (s.moveOn P length).Returns fun result => ∀ f ∈ result.1, f.elements ≠ [] :=
  (returns_replaceDead P length s).bind fun _ hfound => returns_bind fun _ => returns_pure hfound

/-- No call returns a match that is empty. -/
theorem returns_call (P : Predicates π α μ ε) (s : Scanner m α) (c : Call α) :
    (s.call P c).Returns fun result => ∀ f ∈ result.1, f.elements ≠ [] := by
  by_cases hended : s.ended = true
  · intro env result hresult
    rw [call_of_ended P hended c env] at hresult
    cases hresult
    simp
  · cases c with
    | push x =>
      rw [call, push_eq P x (Bool.eq_false_iff.2 hended)]
      exact returns_bind fun attempt => returns_moveOn P none _
    | close =>
      rw [call, close, if_neg hended]
      exact returns_bind fun attempt => returns_moveOn P _ _

end Scanner

namespace Matcher

open Run

variable {m : Matcher π} {P : Predicates π α μ ε} {may : ε → Prop}

/-- The matcher was made from a pattern, with a budget or without. -/
def Made (m : Matcher π) : Prop :=
  ∃ p, m = ofPattern p ∨
    ∃ budget A, Automaton.compileWithin budget p = .ok (.ok A) ∧ m = ⟨A, p.isGreedy⟩

theorem Made.linked (h : m.Made) : m.automaton.Linked := by
  obtain ⟨p, rfl | ⟨budget, A, hA, rfl⟩⟩ := h
  · exact Automaton.linked_ofPattern p
  · -- A budget that suffices changes nothing.
    rw [Automaton.eq_ofPattern_of_compileWithin hA]
    exact Automaton.linked_ofPattern p

theorem ensures_allMatches (hm : m.automaton.Linked) (hP : P.PanicsOnly may) (input : List α) :
    (m.allMatches P input).Ensures may fun found => ∀ f ∈ found, f.elements ≠ [] :=
  (Search.ensures_all hm hP (Search.ofList input) List.drop_zero.symm).mono fun _ h f hf =>
    (h.2 f hf).elements_ne_nil

theorem ensures_firstMatch (hm : m.automaton.Linked) (hP : P.PanicsOnly may) (input : List α) :
    (m.firstMatch P input).Ensures may fun first => ∀ f ∈ first.toList, f.elements ≠ [] := by
  change ((Search.ofList input : Search m α).first P).Ensures may _
  rw [Search.first_eq_step]
  refine (Search.ensures_step hm hP _).bind fun result hresult => ensures_pure ?_
  intro f hf
  exact hresult f (Option.mem_toList.1 hf)

theorem ensures_firstMatchOnce_filled (hm : m.automaton.Linked) (hP : P.PanicsOnly may)
    (input : List α) :
    (m.firstMatchOnce P input).Ensures may fun result =>
      ∀ f ∈ result.1.toList, f.elements ≠ [] := by
  have hfilled : (m.firstMatchOnce P input).Returns fun result =>
      ∀ f ∈ result.1.toList, f.elements ≠ [] := by
    intro env result hresult
    exact (ensures_firstMatch hm P.panicsOnly_true input).returns env result.1
      (firstMatch_of_firstMatchOnce hm hresult)
  exact ((ensures_firstMatchOnce hm hP input).and_returns hfilled).mono fun _ h => h.2

end Matcher

/-! ## Whatever is asked -/

namespace Session

open Run

variable {m : Matcher π} {P : Predicates π α μ ε} {may : ε → Prop}

/-- Between requests all scanners are at rest. -/
def Ready (P : Predicates π α μ ε) (s : Session m α) : Prop :=
  ∀ scanner ∈ s.scanners, scanner.AtRest P

/-- **One request.** -/
theorem ensures_handle (hm : m.automaton.Linked) (hP : P.PanicsOnly may) {s : Session m α}
    (h : s.Ready P) (r : Request α)
    (hr : ∀ input offset, r = .lengthAt input offset → offset ≤ input.length) :
    (s.handle P r).Ensures may fun result =>
      result.2.Ready P ∧ ∀ f ∈ result.1.toList, f.elements ≠ [] := by
  -- No request but the last two touches a scanner, so all scanners stay at rest.
  cases r with
  | allMatches input =>
    exact (Matcher.ensures_allMatches hm hP input).bind fun found hfound =>
      ensures_pure ⟨h, hfound⟩
  | firstMatch input =>
    exact (Matcher.ensures_firstMatch hm hP input).bind fun first hfirst =>
      ensures_pure ⟨h, hfirst⟩
  | hasMatch input =>
    have hholds : (m.hasMatch P input).Ensures may fun _ => True :=
      (Matcher.ensures_firstMatch hm hP input).bind fun first _ => ensures_pure trivial
    exact hholds.bind fun holds _ => ensures_pure ⟨h, by simp [Answer.toList]⟩
  | lengthAt input offset =>
    rw [handle, Matcher.lengthAt_of_le (hr input offset rfl)]
    exact (Matcher.ensures_lengthAhead hm hP offset _).bind fun best _ =>
      ensures_pure ⟨h, by simp [Answer.toList]⟩
  | allMatchesOnce input =>
    have honce := (Matcher.ensures_allMatches hm hP input).of_alike
      (Matcher.alike_allMatchesOnce hm P input) Env.SameButLog.refl
    exact honce.bind fun found hfound => ensures_pure ⟨h, hfound⟩
  | firstMatchOnce input =>
    exact (Matcher.ensures_firstMatchOnce_filled hm hP input).bind fun result hresult =>
      ensures_pure ⟨h, hresult⟩
  | hasMatchOnce input =>
    have hholds : (m.hasMatchOnce P input).Ensures may fun _ => True :=
      (Matcher.ensures_firstMatchOnce hm hP input).bind fun result _ => ensures_pure trivial
    exact hholds.bind fun holds _ => ensures_pure ⟨h, by simp [Answer.toList]⟩
  | search input => exact ensures_pure ⟨h, by simp [Answer.toList]⟩
  | next which =>
    rw [handle]
    split
    · exact ensures_pure ⟨h, by simp [Answer.toList]⟩
    · refine (Search.ensures_step hm hP _).bind fun result hresult => ensures_pure ⟨h, ?_⟩
      intro f hf
      exact hresult f (Option.mem_toList.1 hf)
  | scanner =>
    obtain ⟨new, hbegin, hrest, -⟩ := Scanner.exists_begin_eq_ok (α := α) hm P
    rw [handle, Matcher.scanner, hbegin, ofChecked_ok_bind]
    refine ensures_pure ⟨?_, by simp [Answer.toList]⟩
    intro scanner hscanner
    rcases List.mem_append.1 hscanner with hold | hnew
    · exact h scanner hold
    · rw [List.mem_singleton.1 hnew]
      exact hrest
  | call which c =>
    rw [handle]
    split
    · exact ensures_pure ⟨h, by simp [Answer.toList]⟩
    · rename_i scanner hscanner
      have hrest := h scanner (List.mem_of_getElem? hscanner)
      have hcall := (Scanner.ensures_call hm hP hrest c).and_returns (scanner.returns_call P c)
      refine hcall.bind ?_
      rintro result ⟨hhandled, hfound⟩
      refine ensures_pure ⟨?_, hfound⟩
      -- A scanner is the one that was called, or it is as it was.
      intro scanner' hscanner'
      rcases List.mem_or_eq_of_mem_set hscanner' with hold | rfl
      · exact h scanner' hold
      · exact hhandled.rest

/-- What is refused is refused before anything has happened. -/
theorem handle_lengthAt_of_lt {input : List α} {offset : Nat} (hlt : input.length < offset)
    (s : Session m α) (env : Env π α μ) :
    (s.handle P (.lengthAt input offset)).outcome env =
      (.error (.fault (.offsetPastEnd offset input.length)), env) := by
  rw [handle, Matcher.lengthAt, if_neg (Nat.not_le.2 hlt)]
  rfl

theorem returns_handle (hm : m.automaton.Linked) {s : Session m α} (h : s.Ready P)
    (r : Request α) : (s.handle P r).Returns fun result => result.2.Ready P := by
  intro env result hresult
  by_cases hr : ∀ input offset, r = .lengthAt input offset → offset ≤ input.length
  · exact ((ensures_handle hm P.panicsOnly_true h r hr).returns env result hresult).1
  · simp only [not_forall, Nat.not_le] at hr
    obtain ⟨input, offset, rfl, hlt⟩ := hr
    rw [handle_lengthAt_of_lt hlt] at hresult
    cases hresult

/-- **Any requests.** The induction is on the requests; all scanners are at rest between
any two of them. -/
theorem ready_handleAll (hm : m.automaton.Linked) (rs : List (Request α))
    {s : Session m α} (h : s.Ready P) (env : Env π α μ) :
    ((s.handleAll P rs).run env).1.Ready P := by
  induction rs generalizing s env with
  | nil => exact h
  | cons r rs ih =>
    rcases hrun : (s.handle P r).outcome env with ⟨result, env'⟩
    have hall : (s.handleAll P (r :: rs)).run env =
        match result with
        | .ok (_, s') => (s'.handleAll P rs).run env'
        | .error _ => (s.handleAll P rs).run env' := by
      have hrun' : (s.handle P r).run.run env = (result, env') := hrun
      rw [handleAll, StateT.run_bind, hrun']
      cases result <;> rfl
    rw [hall]
    cases result with
    | error cause => exact ih h env'
    | ok result =>
      have hready := returns_handle hm h r env result (congrArg Prod.fst hrun)
      exact ih hready env'

/-- **No precondition ever fails.** Let any requests be made to a matcher, to searches and
to scanners, and then one more. As long as no predicate panics, it is answered, and no
match of the answer is empty. Only an offset past the end of the input is refused; that
happens before anything is evaluated, and it changes nothing. -/
theorem exists_handle_eq_ok (hm : m.Made) (hP : P.NeverPanics) (asked : List (Request α))
    (r : Request α) (env : Env π α μ) :
    ∃ (s : Session m α) (env' : Env π α μ),
      (handleAll P asked ({} : Session m α)).run env = (s, env') ∧
      ((∀ input offset, r = .lengthAt input offset → offset ≤ input.length) →
        ∃ answer s', ((s.handle P r).outcome env').1 = .ok (answer, s') ∧
          ∀ f ∈ answer.toList, f.elements ≠ []) ∧
      ∀ input offset, r = .lengthAt input offset → input.length < offset →
        (s.handle P r).outcome env' =
          (.error (.fault (.offsetPastEnd offset input.length)), env') := by
  have hready : ((handleAll P asked ({} : Session m α)).run env).1.Ready P :=
    ready_handleAll hm.linked asked (by simp [Ready]) env
  refine ⟨_, _, rfl, ?_, ?_⟩
  · intro hr
    obtain ⟨⟨answer, s'⟩, hok, -, hfilled⟩ :=
      (ensures_handle hm.linked hP hready r hr).exists_ok _
    exact ⟨answer, s', hok, hfilled⟩
  · rintro input offset rfl hlt
    exact handle_lengthAt_of_lt hlt _ _

/-- A push into a scanner that has ended, after an offset that was refused. -/
theorem exists_handle_eq_ok_ones :
    (Matcher.ofPattern (Pattern.predicate ()).plus).Made ∧
      (Predicates.ofTest (fun _ b => b) : Predicates Unit Bool Unit Unit).NeverPanics ∧
      ∃ (s : Session (Matcher.ofPattern (Pattern.predicate ()).plus) Bool)
        (env' : Env Unit Bool Unit),
        (handleAll (.ofTest (fun _ b => b) : Predicates Unit Bool Unit Unit)
          [.lengthAt [true] 2, .scanner, .call 0 (.push true), .call 0 .close]
            ({} : Session (Matcher.ofPattern (Pattern.predicate ()).plus) Bool)).run
              ⟨(), #[], #[]⟩ = (s, env') ∧
        ∃ answer s', ((s.handle (.ofTest (fun _ b => b) : Predicates Unit Bool Unit Unit)
          (.call 0 (.push true))).outcome env').1 = .ok (answer, s') := by
  have hmade : (Matcher.ofPattern (Pattern.predicate ()).plus).Made := ⟨_, Or.inl rfl⟩
  have hnever := (Predicates.answers_ofTest (μ := Unit) (ε := Unit)
    (fun (_ : Unit) (b : Bool) => b)).neverPanics
  obtain ⟨s, env', hall, hok, -⟩ := exists_handle_eq_ok hmade hnever
    [.lengthAt [true] 2, .scanner, .call 0 (.push true), .call 0 .close] (.call 0 (.push true))
    ⟨(), #[], #[]⟩
  obtain ⟨answer, s', hanswer, -⟩ := hok fun input offset h => by cases h
  exact ⟨hmade, hnever, s, env', hall, answer, s', hanswer⟩

end Session

end Motif
