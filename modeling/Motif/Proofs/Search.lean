/-
A search from left to right, attempt by attempt.

What a search does at one position is an attempt, and what it does with the length
of the best match is the same for both kinds of search (`Search.allAfter`). Two
things are said about a whole search: it never faults, and its matches are pieces
of the input that lie behind one another (`ensures_all`); and asking for the next
match comes to the first of all that there are (`next_of_all`).
-/
import Motif.Proofs.Attempt
import Motif.Proofs.Matches

set_option autoImplicit false

namespace Motif

variable {π α μ ε : Type}

/-! ## One attempt -/

namespace Matcher

variable {m : Matcher π} {P : Predicates π α μ ε}

theorem alike_lengthAhead {R : Env π α μ → Env π α μ → Prop} (hP : P.Respects R)
    (m : Matcher π) (position : Nat) (ahead : List α) :
    (m.lengthAhead P position ahead).Alike R (m.lengthAhead P position ahead) :=
  (Attempt.alike_run hP m _ position ahead).bind fun _ => Run.alike_pure _

/-- An attempt claims no more than what lies ahead. -/
theorem ensures_lengthAhead {may : ε → Prop} (hm : m.automaton.Linked) (hP : P.PanicsOnly may)
    (position : Nat) (ahead : List α) :
    (m.lengthAhead P position ahead).Ensures may fun best =>
      ∀ n, best = some n → n ≤ ahead.length := by
  refine (Attempt.ensures_run hm hP _ position ahead).bind ?_
  rintro a ⟨hfits, hstart, hposition, -⟩
  apply Run.ensures_pure
  intro n hn
  have := hfits.best_le n hn
  omega

/-- With nothing ahead, an attempt evaluates nothing and claims nothing. -/
theorem exists_lengthAhead_nil (hm : m.automaton.Linked) (P : Predicates π α μ ε)
    (position : Nat) :
    ∃ best, m.lengthAhead P position ([] : List α) = pure best ∧ ∀ n, best = some n → n ≤ 0 := by
  obtain ⟨a, hbegin, hfits, hstart, hposition⟩ :=
    Attempt.exists_begin_eq_ok hm (some (position + ([] : List α).length)) position
  refine ⟨a.best, ?_, ?_⟩
  · rw [lengthAhead, Attempt.run, hbegin, Run.ofChecked_ok_bind, Attempt.feed, pure_bind]
  · intro n hn
    have := hfits.best_le n hn
    omega

end Matcher

namespace Search

variable {m : Matcher π} {P : Predicates π α μ ε}

/-! ## From one attempt to all of them -/

/-- What remains to be found once the attempt at the position of the search has come to
a best length. -/
def allAfter (P : Predicates π α μ ε) (s : Search m α) (best : Option Nat) :
    Run π α μ ε (List (Match α)) := do
  let taken ← Run.ofChecked (Match.taken? s.position s.ahead best)
  let rest ← (s.past best).all P
  return taken.toList ++ rest

theorem all_of_ahead_ne_nil {s : Search m α} (h : s.ahead ≠ []) :
    s.all P = m.lengthAhead P s.position s.ahead >>= s.allAfter P := by
  rw [all, dif_neg h, probe, bind_assoc]
  refine congrArg _ (funext fun best => ?_)
  rw [bind_assoc]
  exact congrArg _ (funext fun taken => pure_bind _ _)

/-- With nothing ahead there is nothing to find. -/
theorem allAfter_of_ahead_eq_nil {s : Search m α} (h : s.ahead = []) {best : Option Nat}
    (hbest : ∀ n, best = some n → n ≤ 0) : s.allAfter P best = pure [] := by
  have hpast : (s.past best).ahead = [] := by
    rw [past, h]
    exact List.drop_nil
  rw [allAfter, h, Match.taken?_nil hbest, Run.ofChecked_ok_bind, all_of_ahead_eq_nil P hpast,
    pure_bind]
  rfl

/-- A search may make an attempt at the end of the input. -/
theorem all_eq (hm : m.automaton.Linked) (s : Search m α) :
    s.all P = m.lengthAhead P s.position s.ahead >>= s.allAfter P := by
  by_cases h : s.ahead = []
  · obtain ⟨best, hlength, hbest⟩ := Matcher.exists_lengthAhead_nil (α := α) hm P s.position
    rw [all_of_ahead_eq_nil P h, h, hlength, pure_bind, allAfter_of_ahead_eq_nil h hbest]
  · exact all_of_ahead_ne_nil h

theorem alike_all {R : Env π α μ → Env π α μ → Prop} (hP : P.Respects R) (s : Search m α) :
    (s.all P).Alike R (s.all P) := by
  by_cases h : s.ahead = []
  · rw [all_of_ahead_eq_nil P h]
    exact Run.alike_pure _
  · rw [all_of_ahead_ne_nil h]
    refine (m.alike_lengthAhead hP _ _).bind ?_
    intro best
    refine (Run.alike_ofChecked _).bind ?_
    intro taken
    exact (alike_all hP (s.past best)).bind fun rest => Run.alike_pure _
termination_by s.ahead.length
decreasing_by exact length_past_lt h best

theorem alike_allAfter {R : Env π α μ → Env π α μ → Prop} (hP : P.Respects R)
    (s : Search m α) (best : Option Nat) : (s.allAfter P best).Alike R (s.allAfter P best) :=
  (Run.alike_ofChecked _).bind fun _ =>
    (alike_all hP (s.past best)).bind fun _ => Run.alike_pure _

/-- However far the search goes on, it goes on towards the same end. -/
theorem position_past_add_length {s : Search m α} (h : s.ahead ≠ []) {best : Option Nat}
    (hbest : ∀ n, best = some n → n ≤ s.ahead.length) :
    (s.past best).position + (s.past best).ahead.length = s.position + s.ahead.length := by
  have := stride_le hbest (List.length_pos_iff.2 h)
  change s.position + stride best + (s.ahead.drop (stride best)).length = _
  rw [List.length_drop]
  omega

/-! ## The matches of a search -/

end Search

/-- The match is a piece of the input that is not empty. -/
structure Match.IsPiece (input : List α) (f : Match α) : Prop where
  elements_ne_nil : f.elements ≠ []
  last_eq : f.last = f.first + f.elements.length - 1
  last_lt : f.last < input.length
  elements_eq : f.elements = (input.drop f.first).take (f.last + 1 - f.first)

/-- A match that is taken is a piece of the input. -/
theorem Match.isPiece_of_taken? {input : List α} {position : Nat} {best : Option Nat}
    {f : Match α} (h : taken? position (input.drop position) best = .ok (some f)) :
    f.IsPiece input := by
  obtain ⟨-, hle, hfirst, hlast, helements⟩ := of_taken?_eq_some h
  have hstride := one_le_stride best
  have hlength : f.elements.length = stride best := by
    rw [helements, List.length_take]
    exact Nat.min_eq_left hle
  rw [List.length_drop] at hle
  refine ⟨elements_ne_nil_of_taken? h, by omega, by omega, ?_⟩
  have hsame : f.last + 1 - f.first = stride best := by omega
  rw [hsame, hfirst, helements]

namespace Search

variable {m : Matcher π} {P : Predicates π α μ ε}

/-- **A whole search.** It does not fault, and it finds pieces of the input from left
to right. -/
theorem ensures_all {may : ε → Prop} (hm : m.automaton.Linked) (hP : P.PanicsOnly may)
    {input : List α} (s : Search m α) (hs : s.ahead = input.drop s.position) :
    (s.all P).Ensures may fun found =>
      Match.Ordered s.position (s.position + s.ahead.length) found ∧
        ∀ f ∈ found, f.IsPiece input := by
  by_cases h : s.ahead = []
  · rw [all_of_ahead_eq_nil P h]
    exact Run.ensures_pure ⟨Nat.le_add_right _ _, by simp⟩
  · rw [all_of_ahead_ne_nil h]
    refine (Matcher.ensures_lengthAhead hm hP _ _).bind ?_
    intro best hbest
    obtain ⟨taken, htaken, hordered⟩ := Match.exists_taken?_eq_ok s.position hbest
    have hpiece : ∀ f ∈ taken.toList, f.IsPiece input := by
      intro f hf
      rw [Option.mem_toList] at hf
      rw [hs, hf] at htaken
      exact Match.isPiece_of_taken? htaken
    have hpast : (s.past best).ahead = input.drop (s.past best).position := by
      rw [past, hs, List.drop_drop]
    -- The match comes before what the rest of the search finds.
    rw [allAfter, htaken, Run.ofChecked_ok_bind]
    refine (ensures_all hm hP (s.past best) hpast).bind ?_
    rintro rest ⟨hordered', hpieces⟩
    rw [position_past_add_length h hbest] at hordered'
    apply Run.ensures_pure
    refine ⟨hordered.append hordered', ?_⟩
    intro f hf
    rcases List.mem_append.1 hf with hf | hf
    · exact hpiece f hf
    · exact hpieces f hf
termination_by s.ahead.length
decreasing_by exact length_past_lt h best

/-! ## The next match -/

/-- What the next match is depends on what the attempt comes to. -/
theorem run_next_of_ahead_ne_nil {s : Search m α} (h : s.ahead ≠ []) (env : Env π α μ) :
    (s.next P).run env =
      match (s.probe P).outcome env with
      | (.error cause, env') => ((.error cause, s), env')
      | (.ok (best, some found), env') => ((.ok (some found), s.past best), env')
      | (.ok (best, none), env') => ((s.past best).next P).run env' := by
  rw [next, dif_neg h]
  rcases hprobe : (s.probe P).outcome env with ⟨result, env'⟩
  have hrun : (s.probe P).run.run env = (result, env') := hprobe
  rw [StateT.run_bind, hrun]
  cases result with
  | error cause => rfl
  | ok result =>
    obtain ⟨best, taken⟩ := result
    cases taken <;> rfl

/-- The next match and the search behind it. -/
def step (P : Predicates π α μ ε) (s : Search m α) :
    Run π α μ ε (Option (Match α) × Search m α) :=
  ExceptT.mk do
    let (found, s) ← s.next P
    return found.map (·, s)

theorem step_of_ahead_eq_nil {s : Search m α} (h : s.ahead = []) :
    s.step P = pure (none, s) := by
  rw [step, next_of_ahead_eq_nil P h]
  rfl

theorem step_of_ahead_ne_nil {s : Search m α} (h : s.ahead ≠ []) :
    s.step P = (do
      let (best, taken) ← s.probe P
      match taken with
      | some found => return (some found, s.past best)
      | none => (s.past best).step P) := by
  funext env
  change (((s.next P).run env).1.1.map (·, ((s.next P).run env).1.2), ((s.next P).run env).2) =
    Run.outcome _ env
  rw [run_next_of_ahead_ne_nil h]
  rcases hprobe : (s.probe P).outcome env with ⟨result, env'⟩
  cases result with
  | error cause => rw [Run.outcome_bind_of_error hprobe]; rfl
  | ok result =>
    obtain ⟨best, taken⟩ := result
    rw [Run.outcome_bind_of_ok hprobe]
    cases taken <;> rfl

/-- **The next match.** Looking for it raises no fault, and it is not empty. -/
theorem ensures_step {may : ε → Prop} (hm : m.automaton.Linked) (hP : P.PanicsOnly may)
    (s : Search m α) :
    (s.step P).Ensures may fun result => ∀ f ∈ result.1, f.elements ≠ [] := by
  by_cases h : s.ahead = []
  · rw [step_of_ahead_eq_nil h]
    exact Run.ensures_pure (by simp)
  · rw [step_of_ahead_ne_nil h, probe, bind_assoc]
    refine (Matcher.ensures_lengthAhead hm hP _ _).bind ?_
    intro best hbest
    obtain ⟨taken, htaken, -⟩ := Match.exists_taken?_eq_ok s.position hbest
    rw [htaken, bind_assoc, Run.ofChecked_ok_bind, pure_bind]
    cases taken with
    | some f =>
      refine Run.ensures_pure ?_
      rintro _ ⟨rfl⟩
      exact Match.elements_ne_nil_of_taken? htaken
    | none => exact ensures_step hm hP (s.past best)
termination_by s.ahead.length
decreasing_by exact length_past_lt h best

/-- **The next match is the first of all.** Both searches make the same attempts up to
the first one whose match is taken. -/
theorem next_of_all (s : Search m α) (env : Env π α μ) {found : List (Match α)}
    (h : ((s.all P).outcome env).1 = .ok found) :
    ((s.next P).run env).1.1 = .ok found.head? := by
  by_cases hnil : s.ahead = []
  · rw [all_of_ahead_eq_nil P hnil] at h
    rw [next_of_ahead_eq_nil P hnil]
    cases h
    rfl
  · rw [all, dif_neg hnil] at h
    rcases hprobe : (s.probe P).outcome env with ⟨result, env'⟩
    rw [run_next_of_ahead_ne_nil hnil, hprobe]
    cases result with
    | error cause =>
      -- All matches would not have been found.
      rw [Run.outcome_bind_of_error hprobe] at h
      cases h
    | ok result =>
      obtain ⟨best, taken⟩ := result
      rw [Run.outcome_bind_of_ok hprobe] at h
      dsimp only at h ⊢
      rcases hrest : ((s.past best).all P).outcome env' with ⟨rest, env''⟩
      cases rest with
      | error cause =>
        rw [Run.outcome_bind_of_error hrest] at h
        cases h
      | ok rest =>
        rw [Run.outcome_bind_of_ok hrest] at h
        cases h
        cases taken with
        | some first => rfl
        | none =>
          -- Both searches pass the position over.
          exact next_of_all (s.past best) env' (congrArg Prod.fst hrest)
termination_by s.ahead.length
decreasing_by exact length_past_lt hnil best

end Search

end Motif
