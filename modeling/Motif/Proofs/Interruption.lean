/-
Asking again after a panic.

Let the predicates answer by the element alone, except that any evaluation may panic
instead of answering. Whatever a run returns in spite of that, it would have returned
without panics as well, wherever it is started. That is so for one evaluation, and it is kept by
everything that is built from evaluations, up to an attempt of a search
(`Search.returns_probe`).

A search that is asked for its next match may already have passed over some positions when
an attempt is aborted. It then stands at the position of that attempt, and the positions
behind it were passed over for good: an attempt returned there, so it would have returned the
same without panics. What a search without panics would still find is therefore the
same before and after the call (`Search.answered_next`). Any number of calls follows by
induction (`Search.tells_nextEach`).
-/
import Motif.Proofs.Blocks
import Motif.Proofs.Search

set_option autoImplicit false

namespace Motif

variable {π α μ ε β γ : Type}

/-! ## What is returned in spite of panics -/

/-- An evaluation may panic, but if it answers then the answer depends on the element
alone. -/
def Predicates.AnswersOrPanics (P : Predicates π α μ ε) (holds : π → α → Bool) : Prop :=
  ∀ handle x memory b, (P.test handle x memory).1 = .ok b → b = holds handle x

namespace Run

theorem returns_gives_pure (b : β) :
    (pure b : Run π α μ ε β).Returns (pure b : Run π α μ ε β).Gives := by
  intro env b' hb
  cases hb
  exact fun _ => rfl

theorem returns_gives_ofChecked (c : Except Fault β) :
    (ofChecked c : Run π α μ ε β).Returns (ofChecked c : Run π α μ ε β).Gives := by
  cases c with
  | ok b => exact returns_gives_pure b
  | error cause => exact returns_fail cause

/-- What a steady run returns once, it gives. -/
theorem Steady.gives {r : Run π α μ ε β} (h : r.Steady) {env : Env π α μ} {b : β}
    (hb : (r.outcome env).1 = .ok b) : r.Gives b := fun env' => (h.outcome_eq env' env).trans hb

/-- If what the parts return is given by the parts of another run, then what the whole
returns is given by the other whole. -/
theorem Returns.bind_gives {r r' : Run π α μ ε β} {next next' : β → Run π α μ ε γ}
    (h : r.Returns r'.Gives) (hnext : ∀ b, (next b).Returns (next' b).Gives) :
    (r >>= next).Returns (r' >>= next').Gives :=
  h.bind fun b hb env c hc => hb.bind (hnext b env c hc)

end Run

section OrPanics

variable {P : Predicates π α μ ε} {holds : π → α → Bool}

open Run

theorem Run.returns_evaluate (hP : P.AnswersOrPanics holds) (handle : π) (x : α) :
    (evaluate P handle x).Returns
      (evaluate (.ofTest holds : Predicates π α μ ε) handle x).Gives := by
  intro env b hb env'
  rw [outcome_evaluate] at hb
  cases htest : (P.test handle x env.memory).1 with
  | ok b' =>
    rw [htest] at hb
    cases hb
    rw [hP handle x env.memory b htest]
    rfl
  | error reason =>
    rw [htest] at hb
    cases hb

theorem Label.returns_accepts (hP : P.AnswersOrPanics holds) (x : α) (label : Label π) :
    (label.accepts P x).Returns
      (label.accepts (.ofTest holds : Predicates π α μ ε) x).Gives := by
  cases label with
  | any => exact returns_gives_pure true
  | predicate handle => exact returns_evaluate hP handle x

namespace Automaton

theorem returns_follow (hP : P.AnswersOrPanics holds) (x : α) (edges : List (Label π × Nat))
    (reached : StateSet) :
    (follow P x edges reached).Returns
      (follow (.ofTest holds : Predicates π α μ ε) x edges reached).Gives := by
  induction edges generalizing reached with
  | nil => exact returns_gives_pure reached
  | cons edge edges ih =>
    obtain ⟨label, target⟩ := edge
    exact (label.returns_accepts hP x).bind_gives fun passes => ih _

theorem returns_followAll (A : Automaton π) (hP : P.AnswersOrPanics holds) (x : α)
    (active : List Nat) (reached : StateSet) :
    (A.followAll P x active reached).Returns
      (A.followAll (.ofTest holds : Predicates π α μ ε) x active reached).Gives := by
  induction active generalizing reached with
  | nil => exact returns_gives_pure reached
  | cons q active ih =>
    unfold followAll
    split
    · exact returns_fail _
    · exact (returns_follow hP x _ reached).bind_gives fun reached => ih reached

end Automaton

namespace Attempt

theorem returns_advance (hP : P.AnswersOrPanics holds) (m : Matcher π) (length : Option Nat)
    (x : α) (a : Attempt) :
    (a.advance P m length x).Returns
      (a.advance (.ofTest holds : Predicates π α μ ε) m length x).Gives := by
  unfold advance
  split
  · exact (m.automaton.returns_followAll hP x _ ∅).bind_gives fun seeds =>
      returns_gives_ofChecked _
  · exact returns_fail _

theorem returns_feed (hP : P.AnswersOrPanics holds) (m : Matcher π) (length : Option Nat)
    (xs : List α) (a : Attempt) :
    (a.feed P m length xs).Returns
      (a.feed (.ofTest holds : Predicates π α μ ε) m length xs).Gives := by
  induction xs generalizing a with
  | nil => exact returns_gives_pure a
  | cons x xs ih =>
    unfold feed
    split
    · exact (returns_advance hP m length x a).bind_gives fun a => ih a
    · exact returns_gives_pure a

end Attempt

namespace Search

variable {m : Matcher π}

/-- **An attempt that returns** returns what it would return without panics. -/
theorem returns_probe (hP : P.AnswersOrPanics holds) (s : Search m α) :
    (s.probe P).Returns (s.probe (.ofTest holds : Predicates π α μ ε)).Gives := by
  unfold probe Matcher.lengthAhead Attempt.run
  refine Returns.bind_gives ?_ fun best =>
    (returns_gives_ofChecked _).bind_gives fun taken => returns_gives_pure _
  refine Returns.bind_gives ?_ fun a => returns_gives_pure a.best
  exact (returns_gives_ofChecked _).bind_gives fun a =>
    Attempt.returns_feed hP m _ s.ahead a

/-! ## The next match -/

/-- What an answer says of the matches `left` that were to be found with the predicates `P`,
and of the search that is left behind. -/
inductive Answered (P : Predicates π α μ ε) (left : List (Match α)) :
    Except (Abort ε) (Option (Match α)) → Search m α → Prop where
  /-- A call that panicked has lost nothing. -/
  | panicked {reason : ε} {s : Search m α} (h : (s.all P).Gives left) :
    Answered P left (.error (.panic reason)) s
  /-- A match that is returned is the first one. -/
  | found {f : Match α} {rest : List (Match α)} {s : Search m α} (hleft : left = f :: rest)
    (h : (s.all P).Gives rest) : Answered P left (.ok (some f)) s
  /-- There is no next match only when none is left and the input is used up. -/
  | ended {s : Search m α} (hleft : left = []) (hahead : s.ahead = []) :
    Answered P left (.ok none) s

theorem ensures_probe {may : ε → Prop} (hm : m.automaton.Linked) (hP : P.PanicsOnly may)
    (s : Search m α) : (s.probe P).Ensures may fun _ => True := by
  refine (Matcher.ensures_lengthAhead hm hP s.position s.ahead).bind fun best hbest => ?_
  obtain ⟨taken, htaken, -⟩ := Match.exists_taken?_eq_ok s.position hbest
  exact (ensures_ofChecked (Q := fun _ => True) htaken trivial).bind fun _ _ => ensures_pure trivial

/-- Behind an attempt there is left what there was left before it, but for the match that was
taken. -/
theorem exists_gives_past (hP : P.Answers holds) {s : Search m α} (hahead : s.ahead ≠ [])
    {left : List (Match α)} (h : (s.all P).Gives left) {best : Option Nat}
    {taken : Option (Match α)} (hprobe : (s.probe P).Gives (best, taken)) (env : Env π α μ) :
    ∃ rest, ((s.past best).all P).Gives rest ∧ left = taken.toList ++ rest := by
  have hall := h env
  rw [all, dif_neg hahead] at hall
  obtain ⟨result, between, hresult, hmore⟩ := exists_of_bind_eq_ok (Prod.ext hall rfl)
  have hsame : (best, taken) = result := by
    have heq := (hprobe env).symm.trans (congrArg Prod.fst hresult)
    injection heq
  subst hsame
  obtain ⟨rest, after, hrest, hleft⟩ := exists_of_bind_eq_ok hmore
  cases hleft
  -- The search looks at its elements alone, so it does elsewhere what it does here.
  have hsteady : ((s.past best).all P).Steady := alike_all hP.respects (s.past best)
  exact ⟨rest, hsteady.gives (congrArg Prod.fst hrest), rfl⟩

/-- **One call.** The positions that the call passes over before an attempt is aborted have
no match to lose. -/
theorem answered_next (hm : m.automaton.Linked) (hP : P.AnswersOrPanics holds) (s : Search m α)
    {left : List (Match α)} (h : (s.all (.ofTest holds : Predicates π α μ ε)).Gives left)
    (env : Env π α μ) :
    Answered (.ofTest holds : Predicates π α μ ε) left ((s.next P).run env).1.1
      ((s.next P).run env).1.2 := by
  by_cases hnil : s.ahead = []
  · have hleft : left = [] := by
      rw [all_of_ahead_eq_nil _ hnil] at h
      have hgives := h env
      cases hgives
      rfl
    rw [next_of_ahead_eq_nil P hnil]
    exact .ended hleft hnil
  -- One attempt is made. If there is no match at the position, the call goes on behind it,
  -- with one element less.
  · rw [run_next_of_ahead_ne_nil hnil]
    rcases hprobe : (s.probe P).outcome env with ⟨result, env'⟩
    cases result with
    | error cause =>
      have hpanic := ensures_probe hm P.panicsOnly_true s env
      rw [hprobe] at hpanic
      cases cause with
      | panic reason => exact .panicked h
      | fault cause => exact hpanic.elim
    | ok result =>
      obtain ⟨best, taken⟩ := result
      obtain ⟨rest, hrest, hleft⟩ := exists_gives_past (Predicates.answers_ofTest holds) hnil h
        (returns_probe hP s env _ (congrArg Prod.fst hprobe)) env
      cases taken with
      | some f => exact .found hleft hrest
      | none =>
        rw [Option.toList_none, List.nil_append] at hleft
        rw [hleft]
        exact answered_next hm hP (s.past best) hrest env'
termination_by s.ahead.length
decreasing_by exact length_past_lt hnil best

/-! ## Any number of calls -/

/-- Asks for the next match some number of times, whatever comes of it each time. Returns all
answers. -/
def nextEach (P : Predicates π α μ ε) : (calls : Nat) → Search m α →
    StateM (Env π α μ) (List (Except (Abort ε) (Option (Match α))) × Search m α)
  | 0, s => pure ([], s)
  | calls + 1, s => do
    let (answer, s) ← s.next P
    let (later, s) ← nextEach P calls s
    return (answer :: later, s)

/-- The match of an answer, if there is one. -/
def matchOf : Except (Abort ε) (Option (Match α)) → Option (Match α)
  | .ok found => found
  | .error _ => none

/-- The matches of some answers. -/
def returned (answers : List (Except (Abort ε) (Option (Match α)))) : List (Match α) :=
  answers.filterMap matchOf

/-- What the answers to some calls say of the matches that were left to be found. -/
structure Tells (left : List (Match α)) (answers : List (Except (Abort ε) (Option (Match α)))) :
    Prop where
  /-- Each call returned or was aborted by a panic. -/
  ok_or_panic : ∀ a ∈ answers, (∃ found, a = .ok found) ∨ ∃ reason, a = .error (.panic reason)
  /-- The matches come in their order, none is passed over and none comes twice. -/
  isPrefix : returned answers <+: left
  /-- There is no next match only after all of them were returned, and then there is none
  for good. -/
  ended : ∀ before after, answers = before ++ .ok none :: after →
    returned before = left ∧ ∀ a ∈ after, a = .ok none

section Tells

variable {left : List (Match α)} {answers : List (Except (Abort ε) (Option (Match α)))}

theorem tells_nil (left : List (Match α)) :
    Tells left ([] : List (Except (Abort ε) (Option (Match α)))) := by
  refine ⟨by simp, List.nil_prefix, ?_⟩
  intro before after h
  exact absurd h (by simp)

/-- A panic tells nothing. -/
theorem Tells.cons_panic (h : Tells left answers) (reason : ε) :
    Tells left (.error (.panic reason) :: answers) := by
  refine ⟨List.forall_mem_cons.2 ⟨Or.inr ⟨reason, rfl⟩, h.ok_or_panic⟩, h.isPrefix, ?_⟩
  intro before after heq
  cases before with
  | nil => cases heq
  | cons first before =>
    obtain ⟨rfl, htail⟩ := List.cons.inj heq
    exact h.ended before after htail

theorem Tells.cons_found (h : Tells left answers) (f : Match α) :
    Tells (f :: left) (.ok (some f) :: answers) := by
  refine ⟨List.forall_mem_cons.2 ⟨Or.inl ⟨some f, rfl⟩, h.ok_or_panic⟩,
    List.prefix_cons_inj f |>.2 h.isPrefix, ?_⟩
  intro before after heq
  cases before with
  | nil => cases heq
  | cons first before =>
    obtain ⟨rfl, htail⟩ := List.cons.inj heq
    obtain ⟨hleft, hafter⟩ := h.ended before after htail
    exact ⟨congrArg (f :: ·) hleft, hafter⟩

/-- Once the matches are used up there is no next one however often one asks. -/
theorem tells_ended (h : ∀ a ∈ answers, a = .ok none) : Tells [] answers := by
  have hnone : returned answers = [] := by
    refine List.filterMap_eq_nil_iff.2 fun a ha => ?_
    rw [h a ha]
    rfl
  refine ⟨fun a ha => Or.inl ⟨none, h a ha⟩, List.prefix_nil.2 hnone, ?_⟩
  rintro before after rfl
  refine ⟨?_, fun a ha => h a (List.mem_append_right _ (List.mem_cons_of_mem _ ha))⟩
  rw [returned, List.filterMap_append] at hnone
  exact (List.append_eq_nil_iff.1 hnone).1

end Tells

/-- A search that has used up its input gives the same answer to every call. -/
theorem eq_none_of_mem_nextEach {s : Search m α} (h : s.ahead = []) (calls : Nat)
    (env : Env π α μ) : ∀ a ∈ ((s.nextEach P calls).run env).1.1, a = .ok none := by
  induction calls with
  | zero =>
    intro a ha
    cases ha
  | succ calls ih =>
    rw [nextEach, next_of_ahead_eq_nil P h]
    exact List.forall_mem_cons.2 ⟨rfl, ih⟩

/-- **Any number of calls.** The induction is on the calls; what is carried along is the list
of the matches that are left. -/
theorem tells_nextEach (hm : m.automaton.Linked) (hP : P.AnswersOrPanics holds) (calls : Nat)
    {s : Search m α} {left : List (Match α)}
    (h : (s.all (.ofTest holds : Predicates π α μ ε)).Gives left) (env : Env π α μ) :
    Tells left ((s.nextEach P calls).run env).1.1 := by
  induction calls generalizing s left env with
  | zero => exact tells_nil left
  | succ calls ih =>
    have hnext := answered_next hm hP s h env
    change Tells left (((s.next P).run env).1.1 ::
      ((((s.next P).run env).1.2.nextEach P calls).run ((s.next P).run env).2).1.1)
    rcases hrun : (s.next P).run env with ⟨⟨answer, s'⟩, env'⟩
    rw [hrun] at hnext
    cases hnext with
    | panicked h => exact (ih h env').cons_panic _
    | found hleft h =>
      rw [hleft]
      exact (ih h env').cons_found _
    | ended hleft hahead =>
      rw [hleft]
      exact tells_ended (List.forall_mem_cons.2 ⟨rfl, eq_none_of_mem_nextEach hahead calls env'⟩)

theorem length_nextEach (P : Predicates π α μ ε) (calls : Nat) (s : Search m α)
    (env : Env π α μ) : ((s.nextEach P calls).run env).1.1.length = calls := by
  induction calls generalizing s env with
  | zero => rfl
  | succ calls ih => exact congrArg (· + 1) (ih _ _)

/-- **Panics cost nothing but the call.** Let the predicates answer by the element alone, and
let any evaluation panic instead, whenever it likes. However often a search is asked for its
next match, the calls that return come to the matches that are found without panics, from the
first one on, and there is no next match only when all of them were returned. -/
theorem exists_tells_nextEach (p : Pattern π) {P : Predicates π α μ ε} {holds : π → α → Bool}
    (hP : P.AnswersOrPanics holds) (input : List α) (calls : Nat) (env : Env π α μ) :
    ∃ found answers, ((Matcher.ofPattern p).allMatches (.ofTest holds : Predicates π α μ ε)
        input).Gives found ∧
      (((ofList input : Search (.ofPattern p) α).nextEach P calls).run env).1.1 = answers ∧
      answers.length = calls ∧ Tells found answers := by
  have hm := Automaton.linked_ofPattern p
  have hanswers := Predicates.answers_ofTest (μ := μ) (ε := ε) holds
  have hsteady : ((ofList input : Search (.ofPattern p) α).all
      (.ofTest holds : Predicates π α μ ε)).Steady := alike_all hanswers.respects _
  obtain ⟨found, hfound, -⟩ := (ensures_all (m := .ofPattern p) hm hanswers.neverPanics
    (ofList input) List.drop_zero.symm).exists_ok env
  have hgives := hsteady.gives hfound
  exact ⟨found, _, hgives, rfl, length_nextEach P calls _ env,
    tells_nextEach (m := .ofPattern p) hm hP calls hgives env⟩

/-- The theorem for five calls on three bits, with a predicate that panics at its second
evaluation. -/
theorem exists_tells_nextEach_of_second :
    (⟨fun _ b n => (if n = 1 then .error () else .ok b, n + 1)⟩ :
      Predicates Unit Bool Nat Unit).AnswersOrPanics (fun _ b => b) ∧
    ∃ found answers,
      ((Matcher.ofPattern (Pattern.predicate ()).plus).allMatches
        (.ofTest (fun _ b => b) : Predicates Unit Bool Nat Unit) [true, false, true]).Gives found ∧
      (((ofList [true, false, true] : Search (.ofPattern (Pattern.predicate ()).plus) Bool).nextEach
        ⟨fun _ b n => (if n = 1 then .error () else .ok b, n + 1)⟩ 5).run
          ⟨0, #[], #[]⟩).1.1 = answers ∧
      answers.length = 5 ∧ Tells found answers := by
  have hP : (⟨fun _ b n => (if n = 1 then .error () else .ok b, n + 1)⟩ :
      Predicates Unit Bool Nat Unit).AnswersOrPanics (fun _ b => b) := by
    intro handle x n b h
    dsimp only at h
    split at h
    · cases h
    · injection h with h
      exact h.symm
  exact ⟨hP, exists_tells_nextEach (Pattern.predicate ()).plus hP [true, false, true] 5
    ⟨0, #[], #[]⟩⟩

end Search

end OrPanics

end Motif
