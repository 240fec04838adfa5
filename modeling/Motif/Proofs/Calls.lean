/-
A scanner under any calls in any order.

Elements may be pushed and the end may be told as often as the caller likes, also
after the end was told. What is true of the scanner after all of that is one record
(`Scanner.After`), whose fields speak of the counters, the buffer, the matches so
far and the attempt that is going on. It follows by induction on the calls from what
one call does to a scanner at rest.

Only the elements that are pushed before the first end arrive (`Call.arrived`).
-/
import Motif.Proofs.Blocks
import Motif.Proofs.Scanner

set_option autoImplicit false

namespace Motif

variable {π α μ ε : Type}

/-! ## Calls -/

/-- What can be asked of a scanner. -/
inductive Call (α : Type) where
  | push (x : α)
  | close
deriving DecidableEq, Repr

/-- The elements that are pushed before the first end. -/
def Call.arrived : List (Call α) → List α
  | [] => []
  | push x :: calls => x :: arrived calls
  | close :: _ => []

namespace Scanner

variable {m : Matcher π}

/-- Makes a call and returns the matches that have become certain. -/
def call (P : Predicates π α μ ε) (s : Scanner m α) :
    Call α → Run π α μ ε (List (Match α) × Scanner m α)
  | .push x => s.push P x
  | .close => s.close P

/-- Makes calls one after the other and returns the matches of all of them. -/
def calls (P : Predicates π α μ ε) :
    List (Call α) → Scanner m α → Run π α μ ε (List (Match α) × Scanner m α)
  | [], s => pure ([], s)
  | c :: cs, s => do
    let (found, s) ← s.call P c
    let (later, s) ← calls P cs s
    return (found ++ later, s)

/-- The elements that arrive during some calls. None does after the end. -/
def arriving (s : Scanner m α) (cs : List (Call α)) : List α :=
  if s.ended then [] else Call.arrived cs

/-! ## From one call to all of them -/

section Invariant

variable {P : Predicates π α μ ε} {may : ε → Prop} {s : Scanner m α}

/-- What calls do to a scanner at rest. -/
structure Handled (P : Predicates π α μ ε) (s : Scanner m α) (cs : List (Call α))
    (found : List (Match α)) (s' : Scanner m α) : Prop where
  rest : AtRest P s'
  ended_iff : s'.ended = true ↔ s.ended = true ∨ Call.close ∈ cs
  advances : Advances s (s.arriving cs) found s'

theorem handled_of_ended (h : AtRest P s) (hended : s.ended = true) (cs : List (Call α)) :
    Handled P s cs [] s := by
  have hnone : s.arriving cs = [] := if_pos hended
  refine ⟨h, ⟨Or.inl, fun _ => hended⟩, ?_⟩
  rw [hnone]
  exact advances_refl s

/-- **One call.** -/
theorem ensures_call (hm : m.automaton.Linked) (hP : P.PanicsOnly may) (h : AtRest P s)
    (c : Call α) :
    (s.call P c).Ensures may fun result => Handled P s [c] result.1 result.2 := by
  by_cases hended : s.ended = true
  · have hsame : (s.call P c).Ensures may (· = ([], s)) := by
      cases c with
      | push x => exact ensures_push_of_ended x hended
      | close => exact ensures_close_of_ended hended
    refine hsame.mono ?_
    rintro _ rfl
    exact handled_of_ended h hended [c]
  · have hopen : s.ended = false := Bool.eq_false_iff.2 hended
    have harriving : s.arriving [c] = Call.arrived [c] := if_neg hended
    cases c with
    | push x =>
      refine (ensures_push hm hP x h hopen).mono ?_
      rintro result ⟨hrest, hstill, hadvances⟩
      refine ⟨hrest, ?_, ?_⟩
      · rw [hstill, hopen]
        simp
      · rw [harriving]
        exact hadvances
    | close =>
      refine (ensures_close hm hP h hopen).mono ?_
      rintro result ⟨hrest, hnow, hadvances⟩
      refine ⟨hrest, ?_, ?_⟩
      · rw [hnow]
        simp
      · rw [harriving]
        exact hadvances

/-- Once the first call is handled, the elements of the others arrive. -/
theorem Handled.arriving_cons {c : Call α} {found : List (Match α)} {s' : Scanner m α}
    (h : Handled P s [c] found s') (cs : List (Call α)) :
    s.arriving (c :: cs) = s.arriving [c] ++ s'.arriving cs := by
  have hiff := h.ended_iff
  unfold arriving
  by_cases hended : s.ended = true
  · rw [if_pos hended, if_pos hended, if_pos (hiff.2 (Or.inl hended)), List.nil_append]
  · rw [if_neg hended, if_neg hended]
    cases c with
    | push x =>
      have hopen : ¬ s'.ended = true := by
        rw [hiff]
        simp [hended]
      rw [if_neg hopen]
      rfl
    | close =>
      rw [if_pos (hiff.2 (Or.inr (List.mem_singleton_self _)))]
      rfl

/-- **Any calls.** The induction is on the calls; what is carried from one to the next
is that the scanner is at rest. -/
theorem ensures_calls (hm : m.automaton.Linked) (hP : P.PanicsOnly may) (h : AtRest P s)
    (cs : List (Call α)) :
    (s.calls P cs).Ensures may fun result => Handled P s cs result.1 result.2 := by
  induction cs generalizing s with
  | nil =>
    have hnone : s.arriving ([] : List (Call α)) = [] := ite_self _
    refine Run.ensures_pure ⟨h, by simp, ?_⟩
    rw [hnone]
    exact advances_refl s
  | cons c cs ih =>
    refine (ensures_call hm hP h c).bind ?_
    intro first hfirst
    refine (ih hfirst.rest).bind ?_
    intro later hlater
    apply Run.ensures_pure
    refine ⟨hlater.rest, ?_, ?_⟩
    · rw [hlater.ended_iff, hfirst.ended_iff, List.mem_singleton, List.mem_cons, or_assoc]
    · rw [hfirst.arriving_cons cs]
      exact hfirst.advances.trans h hfirst.rest hlater.advances

end Invariant

/-! ## The invariant -/

/-- What is true of a scanner after some calls that have returned the matches
`found`. -/
structure After (P : Predicates π α μ ε) (cs : List (Call α)) (found : List (Match α))
    (s : Scanner m α) : Prop where
  /-- The scanner knows whether the end was told. -/
  ended_iff : s.ended = true ↔ Call.close ∈ cs
  /-- The position counts the pushes before the first end. -/
  position_eq : s.position = (Call.arrived cs).length
  /-- Elements are kept from the start of the current attempt on. -/
  origin_eq : s.origin = s.start
  start_le : s.start ≤ s.position
  /-- The elements that are kept are those that arrived from there on. -/
  buffer_eq : s.buffer.toList = (Call.arrived cs).drop s.start
  kept_eq : s.kept = s.position - s.start
  /-- The matches lie behind, and none is empty. -/
  found_lt : ∀ f ∈ found, f.first ≤ f.last ∧ f.last < s.start
  /-- The matches come from left to right and do not overlap. -/
  found_pairwise : found.Pairwise fun f g => f.last < g.first
  /-- Before the end, the attempt is alive and has come as far as the input, or nothing
  is kept. -/
  attempt : Call.close ∉ cs →
    (s.attempt.alive = true ∧ s.attempt.start = s.start ∧ s.attempt.position = s.position) ∨
      s.kept = 0
  /-- Before the end, the attempt is what a new one is after the elements that are kept,
  if the answers of the predicates depend on the element alone. -/
  attempt_eq : Call.close ∉ cs → (∃ holds, P.Answers holds) → ∀ env,
    ((Attempt.run P m none s.start s.buffer.toList).outcome env).1 = .ok s.attempt
  /-- After the end the attempt is over and nothing is kept. -/
  after_end : Call.close ∈ cs → s.attempt.alive = false ∧ s.kept = 0
  /-- After the end no call returns anything or changes the scanner. -/
  ignores : Call.close ∈ cs → ∀ c env, ((s.call P c).outcome env).1 = .ok ([], s)

/-- After the end every call is ignored. -/
theorem call_of_ended {s : Scanner m α} (P : Predicates π α μ ε) (hended : s.ended = true)
    (c : Call α) (env : Env π α μ) : ((s.call P c).outcome env).1 = .ok ([], s) := by
  have hsame : (s.call P c).Ensures (fun _ => False) (· = ([], s)) := by
    cases c with
    | push x => exact ensures_push_of_ended x hended
    | close => exact ensures_close_of_ended hended
  obtain ⟨result, hresult, heq⟩ := hsame.exists_ok env
  rw [hresult, heq]

/-- What calls do to a scanner that nothing has been pushed into. -/
theorem Handled.after {P : Predicates π α μ ε} {cs : List (Call α)} {found : List (Match α)}
    {s s' : Scanner m α} (h : Handled P s cs found s') (hopen : s.ended = false)
    (hposition : s.position = 0) (hstart : s.start = 0) (hbuffer : s.buffer.toList = []) :
    After P cs found s' := by
  have hrest := h.rest
  have hended : s'.ended = true ↔ Call.close ∈ cs := by
    rw [h.ended_iff, hopen]
    simp
  have hopen' : Call.close ∉ cs → s'.ended = false := fun hc =>
    Bool.eq_false_iff.2 fun he => hc (hended.1 he)
  have harriving : s.arriving cs = Call.arrived cs :=
    if_neg (by rw [hopen]; exact Bool.false_ne_true)
  have hadvances := h.advances
  rw [harriving] at hadvances
  have hkept : s'.kept = s'.position - s'.start := by
    have := hrest.position_eq
    have := hrest.origin_eq
    unfold kept
    omega
  refine ⟨hended, ?_, hrest.origin_eq, hrest.start_le, ?_, hkept, ?_, hadvances.ordered.pairwise,
    ?_, ?_, ?_, ?_⟩
  -- The counters, the buffer and the matches.
  · rw [hadvances.position_eq, hposition, Nat.zero_add]
  · rw [hadvances.buffer_eq, hbuffer, hstart, List.nil_append, Nat.sub_zero]
  · intro f hf
    exact (hadvances.ordered.bounds f hf).2
  -- The attempt before the end.
  · intro hc
    rcases hrest.settled (hopen' hc) with halive | hempty
    · exact Or.inl ⟨halive, hrest.attempt_start, hrest.attempt_eq halive⟩
    · right
      rw [hkept, hempty, Nat.sub_self]
  · intro hc hanswers
    have hreplayed := hrest.replayed (hopen' hc) hanswers
    rw [hrest.pending_eq] at hreplayed
    exact hreplayed
  -- What is left after the end.
  · intro hc
    obtain ⟨hempty, hdead⟩ := hrest.after_end (hended.2 hc)
    refine ⟨hdead, ?_⟩
    rw [hkept, hempty, Nat.sub_self]
  · intro hc c env
    exact call_of_ended P (hended.2 hc) c env

/-- **The invariant of a scanner.** Whatever is asked of it in whatever order, all calls
return as long as no predicate panics, and afterwards its counters agree with what has
arrived. -/
theorem exists_after_calls (p : Pattern π) {P : Predicates π α μ ε} (hP : P.NeverPanics)
    (cs : List (Call α)) (env : Env π α μ) :
    ∃ found, ∃ s : Scanner (.ofPattern p) α,
      ((do let s ← (Matcher.ofPattern p).scanner
           s.calls P cs).outcome env).1 = .ok (found, s) ∧ After P cs found s := by
  have hm := Automaton.linked_ofPattern p
  obtain ⟨s, hbegin, hrest, hopen, hposition, hstart, hbuffer, -⟩ :=
    exists_begin_eq_ok (m := .ofPattern p) (α := α) hm P
  have hcalls := (ensures_calls hm hP hrest cs).mono fun _ hresult =>
    hresult.after hopen hposition hstart hbuffer
  obtain ⟨⟨found, s'⟩, hok, hafter⟩ := hcalls.exists_ok env
  refine ⟨found, s', ?_, hafter⟩
  rw [Matcher.scanner, hbegin, Run.ofChecked_ok_bind]
  exact hok

/-- The invariant for two pushes and two ends, one of them too early. -/
theorem exists_after_calls_ones :
    (Predicates.ofTest (fun _ b => b) : Predicates Unit Bool Unit Unit).NeverPanics ∧
      ∃ found, ∃ s : Scanner (.ofPattern (Pattern.predicate ()).plus) Bool,
        ((do let s ← (Matcher.ofPattern (Pattern.predicate ()).plus).scanner
             s.calls (.ofTest (fun _ b => b) : Predicates Unit Bool Unit Unit)
               [.push true, .close, .push true, .close]).outcome ⟨(), #[], #[]⟩).1 =
          .ok (found, s) ∧
        s.position = 1 ∧ s.kept = 0 := by
  refine ⟨(Predicates.answers_ofTest _).neverPanics, ?_⟩
  obtain ⟨found, s, hok, hafter⟩ := exists_after_calls (Pattern.predicate ()).plus
    (P := (.ofTest (fun _ b => b) : Predicates Unit Bool Unit Unit))
    (Predicates.answers_ofTest _).neverPanics [.push true, .close, .push true, .close]
    ⟨(), #[], #[]⟩
  exact ⟨found, s, hok, hafter.position_eq, (hafter.after_end (by decide)).2⟩

end Scanner

end Motif
