/-
Looking for the first match only.

A search for the first match stops at the attempt that finds it. The same search over
arriving input stops at the push that makes it certain, and that push does more than find
it: it moves behind the match and lets new attempts catch up. Its record therefore runs
ahead of the record of the search, but it can no longer change the match
(`Scanner.precedes_pushUntilMatch`). In turn it does nothing that a search for all matches
would not do (`Scanner.pushUntilMatch_precedes_finish`).

The comparison with the search follows the one for all matches: what is still to come is
an outlook, here on the first match only, and every part of a scanner keeps to it until a
match is emitted.

A match that was returned by a push was found without the elements behind it. It is the
first match of every input that begins with the elements that were pushed
(`Matcher.CertainAfter`).
-/
import Motif.Proofs.Record
import Motif.Proofs.Streaming
import Motif.Proofs.Tiling

set_option autoImplicit false

namespace Motif

variable {π α μ ε β : Type}

/-! ## The first match of a search -/

namespace Search

variable {m : Matcher π} {P : Predicates π α μ ε}

/-- The next match of a search, without the search that is left. -/
def first (P : Predicates π α μ ε) (s : Search m α) : Run π α μ ε (Option (Match α)) :=
  ExceptT.mk do
    let (found, _) ← s.next P
    return found

/-- What the next match is once the attempt at the position of the search has come to a
best length. -/
def firstAfter (P : Predicates π α μ ε) (s : Search m α) (best : Option Nat) :
    Run π α μ ε (Option (Match α)) := do
  let taken ← Run.ofChecked (Match.taken? s.position s.ahead best)
  match taken with
  | some found => return some found
  | none => (s.past best).first P

theorem first_eq_step (P : Predicates π α μ ε) (s : Search m α) :
    s.first P = (do
      let (found, _) ← s.step P
      return found) := by
  funext env
  change (((s.next P).run env).1.1, ((s.next P).run env).2) = Run.outcome _ env
  rcases hnext : (s.next P).run env with ⟨⟨result, s'⟩, env'⟩
  have hstep : (s.step P).outcome env = (result.map (·, s'), env') := by
    change (((s.next P).run env).1.1.map (·, ((s.next P).run env).1.2),
      ((s.next P).run env).2) = _
    rw [hnext]
  cases result with
  | error cause => rw [Run.outcome_bind_of_error hstep]
  | ok found => rw [Run.outcome_bind_of_ok hstep]; rfl

theorem first_of_ahead_eq_nil {s : Search m α} (h : s.ahead = []) : s.first P = pure none := by
  rw [first_eq_step, step_of_ahead_eq_nil h, pure_bind]

theorem first_of_ahead_ne_nil {s : Search m α} (h : s.ahead ≠ []) :
    s.first P = m.lengthAhead P s.position s.ahead >>= s.firstAfter P := by
  rw [first_eq_step, step_of_ahead_ne_nil h, probe, bind_assoc, bind_assoc]
  refine congrArg _ (funext fun best => ?_)
  rw [bind_assoc, firstAfter]
  refine congrArg _ (funext fun taken => ?_)
  rw [pure_bind]
  cases taken with
  | some found => rfl
  | none => exact (first_eq_step P (s.past best)).symm

/-- With nothing ahead there is no first match. -/
theorem firstAfter_of_ahead_eq_nil {s : Search m α} (h : s.ahead = []) {best : Option Nat}
    (hbest : ∀ n, best = some n → n ≤ 0) : s.firstAfter P best = pure none := by
  have hpast : (s.past best).ahead = [] := by
    rw [past, h]
    exact List.drop_nil
  rw [firstAfter, h, Match.taken?_nil hbest, Run.ofChecked_ok_bind]
  exact first_of_ahead_eq_nil hpast

/-- A search may make an attempt at the end of the input. -/
theorem first_eq (hm : m.automaton.Linked) (s : Search m α) :
    s.first P = m.lengthAhead P s.position s.ahead >>= s.firstAfter P := by
  by_cases h : s.ahead = []
  · obtain ⟨best, hlength, hbest⟩ := Matcher.exists_lengthAhead_nil (α := α) hm P s.position
    rw [first_of_ahead_eq_nil h, h, hlength, pure_bind, firstAfter_of_ahead_eq_nil h hbest]
  · exact first_of_ahead_ne_nil h

theorem alike_first {R : Env π α μ → Env π α μ → Prop} (hP : P.Respects R) (s : Search m α) :
    (s.first P).Alike R (s.first P) := by
  by_cases h : s.ahead = []
  · rw [first_of_ahead_eq_nil h]
    exact Run.alike_pure _
  · rw [first_of_ahead_ne_nil h]
    refine (m.alike_lengthAhead hP _ _).bind ?_
    intro best
    refine (Run.alike_ofChecked _).bind ?_
    intro taken
    cases taken with
    | some found => exact Run.alike_pure _
    | none => exact alike_first hP (s.past best)
termination_by s.ahead.length
decreasing_by exact length_past_lt h best

theorem alike_firstAfter {R : Env π α μ → Env π α μ → Prop} (hP : P.Respects R)
    (s : Search m α) (best : Option Nat) :
    (s.firstAfter P best).Alike R (s.firstAfter P best) := by
  refine (Run.alike_ofChecked _).bind ?_
  intro taken
  cases taken with
  | some found => exact Run.alike_pure _
  | none => exact alike_first hP (s.past best)

end Search

namespace Scanner

variable {m : Matcher π} {P : Predicates π α μ ε} {s : Scanner m α}

/-! ## What a scanner adds to the record -/

section Grows

open Run

theorem grows_emit (s : Scanner m α) : (s.emit : Run π α μ ε (Option (Match α))).Grows := by
  by_cases hstart : s.attempt.start ≠ s.start
  · rw [emit, if_pos hstart]
    exact grows_fail _
  · rw [emit, if_neg hstart]
    refine (grows_ofChecked _).bind fun elements => ?_
    refine (grows_ofChecked _).bind fun taken => ?_
    cases taken with
    | none => exact grows_pure _
    | some found => exact (grows_report _).bind fun _ => grows_pure _

theorem grows_catchUp (P : Predicates π α μ ε) (length : Option Nat) (s : Scanner m α) :
    (s.catchUp P length).Grows := by
  refine (grows_ofChecked _).bind fun replayed => ?_
  refine (grows_report _).bind fun _ => ?_
  refine (grows_ofChecked _).bind fun elements => ?_
  have hrun : (Attempt.run P m length s.start elements).Grows :=
    .of_alike fun begun => Attempt.alike_run (P.respects_since begun) m length s.start elements
  exact hrun.bind fun attempt => grows_pure _

theorem grows_replaceDead (P : Predicates π α μ ε) (length : Option Nat) (s : Scanner m α) :
    (s.replaceDead P length).Grows := by
  fun_induction replaceDead P length s with
  | case1 s _ => exact grows_pure _
  | case2 s _ _ => exact grows_pure _
  | case3 s _ _ ih =>
    refine (grows_emit s).bind fun taken => ?_
    refine (grows_catchUp P length s.past).bind fun attempt => ?_
    exact (ih attempt).bind fun result => grows_pure _

theorem grows_moveOn (P : Predicates π α μ ε) (length : Option Nat) (s : Scanner m α) :
    (s.moveOn P length).Grows := by
  refine (grows_replaceDead P length s).bind fun result => ?_
  exact (grows_ofChecked _).bind fun s => grows_pure _

theorem grows_push (P : Predicates π α μ ε) (x : α) (s : Scanner m α) : (s.push P x).Grows := by
  unfold push
  split
  · exact (grows_report _).bind fun _ => grows_pure _
  · split
    · have hadvance : (s.attempt.advance P m none x).Grows :=
        .of_alike fun begun => s.attempt.alike_advance (P.respects_since begun) m none x
      exact hadvance.bind fun attempt => grows_moveOn P none _
    · exact (grows_pure _).bind fun attempt => grows_moveOn P none _

theorem grows_close (P : Predicates π α μ ε) (s : Scanner m α) : (s.close P).Grows := by
  unfold close
  split
  · exact (grows_report _).bind fun _ => grows_pure _
  · exact (grows_ofChecked _).bind fun attempt => grows_moveOn P _ _

theorem grows_finish (P : Predicates π α μ ε) (ys : List α) (s : Scanner m α) :
    (s.finish P ys).Grows := by
  induction ys generalizing s with
  | nil =>
    rw [finish_nil]
    exact (grows_close P s).bind fun _ => (grows_pure _).bind fun _ => grows_pure _
  | cons y ys ih =>
    rw [finish_cons]
    exact (grows_push P y s).bind fun result => (ih result.2).bind fun _ => grows_pure _

end Grows

/-! ## The first match that is still to be found -/

/-- The first match that is found from now on, if `ys` is still to arrive. -/
def outlookFirst (P : Predicates π α μ ε) (s : Scanner m α) (ys : List α) :
    Run π α μ ε (Option (Match α)) := s.whenTold P ys (Search.firstAfter P)

section Precedes

variable {S : Option (Match α) → β → Prop} {next : List (Match α) × Scanner m α → Run π α μ ε β}

/-- **The loop of replacements keeps to the outlook until it emits a match.** From there
on the match is fixed, and whatever the loop still does only adds to the record. -/
theorem precedes_replaceDead (hm : m.automaton.Linked) (length : Option Nat) (s : Scanner m α)
    (h : s.Sound) (hdead : length.isSome = true → s.attempt.alive = false)
    (hreplayed : length = none → Replayed P s) {ys : List α}
    (hlength : length = none ∨ length = some s.position ∧ ys = [])
    (hgrows : ∀ result, (next result).Grows)
    (hfound : ∀ f rest s', (next (f :: rest, s')).Returns (S (some f)))
    (hnone : ∀ s', Replaced P length s [] s' →
      (s'.outlookFirst P ys).Precedes Env.SameButLog S (next ([], s'))) :
    (s.outlookFirst P ys).Precedes Env.SameButLog S (s.replaceDead P length >>= next) := by
  fun_induction replaceDead P length s generalizing next with
  | case1 s halive =>
    rw [pure_bind]
    exact hnone s (replaced_refl h (Or.inl halive) hdead hreplayed)
  | case2 s hdead' hle =>
    have hempty : s.start = s.position := Nat.le_antisymm h.start_le hle
    rw [pure_bind]
    exact hnone s (replaced_refl h (Or.inr hempty) hdead hreplayed)
  | case3 s hdead' hle ih =>
    obtain ⟨taken, htaken, hordered⟩ := h.exists_taken
    have hlt : s.start < s.position := Nat.not_le.1 hle
    have hcounted := h.counted_past hlt
    have hemit := (h.alike_emit (π := π) (μ := μ) (ε := ε)).symm
    rw [htaken] at hemit
    have houtlook : s.outlookFirst P ys = (do
        let taken ← Run.ofChecked (.ok taken)
        match taken with
        | some found => return some found
        | none => (s.past.asSearch ys).first P) := by
      rw [outlookFirst, whenTold_of_dead ys (Bool.eq_false_iff.2 hdead'), Search.firstAfter,
        asSearch_past h hlt, asSearch, Match.taken?_append ys fun _ hn => h.best_le hn, htaken]
    have hreturns : (Run.ofChecked (.ok taken) : Run π α μ ε (Option (Match α))).Returns
        (· = taken) := Run.returns_pure rfl
    rw [houtlook, bind_assoc]
    refine hemit.precedes_of_returns hreturns ?_
    intro taken hsame
    subst hsame
    simp only [bind_assoc, pure_bind]
    cases taken with
    | some found =>
      -- The match is there, and the new attempts cannot take it back.
      refine Run.precedes_pure (fun _ _ henv => henv.calls) ?_ ?_
      · refine (grows_catchUp P length s.past).bind fun attempt => ?_
        exact (grows_replaceDead P length _).bind fun result => hgrows _
      · refine Run.returns_bind fun attempt => ?_
        exact Run.returns_bind fun result => hfound found result.1 result.2
    | none =>
      -- The search passes over the same position, and its next attempt is the new one.
      have hretry := alike_whenTold_retry (P := P) hm P.respects_sameButLog hcounted hlength
        (Search.alike_firstAfter P.respects_sameButLog)
      dsimp only
      rw [Search.first_eq hm]
      refine Run.Precedes.of_alike ?_ hretry.symm
      refine (hcounted.alike_catchUp P length).symm.precedes_of_returns
        (ensures_retry hm P.panicsOnly_true length hcounted).returns ?_
      rintro attempt ⟨hsound, hgiven, hreplay⟩
      refine ih attempt hsound hgiven hreplay hlength (fun _ => hgrows _)
        (fun f rest s' => hfound f rest s') ?_
      intro s' hreplaced
      exact hnone s' (hreplaced.after_past hordered)

/-- **Dealing with dead attempts keeps to the outlook until a match is certain.** -/
theorem precedes_moveOn (hm : m.automaton.Linked) (length : Option Nat) (s : Scanner m α)
    (h : s.Sound) (hended : s.ended = length.isSome)
    (hdead : length.isSome = true → s.attempt.alive = false)
    (hreplayed : length = none → Replayed P s) {ys : List α}
    (hlength : length = none ∨ length = some s.position ∧ ys = [])
    (hgrows : ∀ result, (next result).Grows)
    (hfound : ∀ f rest s', (next (f :: rest, s')).Returns (S (some f)))
    (hnone : ∀ s', AtRest P s' → s'.ended = s.ended →
      (s'.outlookFirst P ys).Precedes Env.SameButLog S (next ([], s'))) :
    (s.outlookFirst P ys).Precedes Env.SameButLog S (s.moveOn P length >>= next) := by
  have htrim : s.moveOn P length >>= next = (s.replaceDead P length >>= fun result =>
      Run.ofChecked result.2.trim >>= fun s' => next (result.1, s')) := by
    unfold moveOn
    simp only [bind_assoc, pure_bind]
  rw [htrim]
  refine precedes_replaceDead hm length s h hdead hreplayed hlength
    (fun _ => (Run.grows_ofChecked _).bind fun _ => hgrows _)
    (fun f rest s' => Run.returns_bind fun s'' => hfound f rest s'') ?_
  intro s' hreplaced
  dsimp only
  rw [hreplaced.sound.trim_eq, Run.ofChecked_ok_bind, outlookFirst, ← whenTold_trimmed]
  exact hnone _ (hreplaced.atRest hended) hreplaced.ended_eq

end Precedes

/-! ## Pushing until a match is certain -/

theorem grows_pushUntilMatch (P : Predicates π α μ ε) (ys : List α) (before : Nat)
    (s : Scanner m α) : (s.pushUntilMatch P ys before).Grows := by
  induction ys generalizing before s with
  | nil => exact (grows_close P s).bind fun _ => Run.grows_pure _
  | cons y ys ih =>
    refine (grows_push P y s).bind fun result => ?_
    obtain ⟨found, s'⟩ := result
    cases found with
    | nil => exact ih (before + 1) s'
    | cons first rest => exact Run.grows_pure _

/-- **The rest of the input.** The induction is on what is still to arrive; it ends with
the first push that makes a match certain. -/
theorem precedes_pushUntilMatch (hm : m.automaton.Linked) (ys : List α) (before : Nat)
    {s : Scanner m α} (h : AtRest P s) (hopen : s.ended = false) :
    (s.outlookFirst P ys).Precedes Env.SameButLog (fun first result => result.1 = first)
      (s.pushUntilMatch P ys before) := by
  induction ys generalizing before s with
  | nil =>
    obtain ⟨a, hconclude, hdead, hsound⟩ := h.exists_conclude_eq_ok hm
    rw [pushUntilMatch, close_eq P hopen hconclude, outlookFirst, whenTold_nil hconclude hdead]
    refine precedes_moveOn hm (some s.position) _ hsound rfl (fun _ => hdead)
      (fun hnone => absurd hnone (Option.some_ne_none s.position)) (Or.inr ⟨rfl, rfl⟩)
      (fun _ => Run.grows_pure _) (fun f rest s' => Run.returns_pure rfl) ?_
    intro s' hrest hended
    -- Nothing is left, neither for the scanner nor for the search.
    obtain ⟨hahead, hover, hbest⟩ := hrest.asSearch_nil hended
    rw [outlookFirst, whenTold_of_dead [] hover, Search.firstAfter_of_ahead_eq_nil hahead hbest]
    exact Run.precedes_pure (fun _ _ henv => henv.calls) (Run.grows_pure _) (Run.returns_pure rfl)
  | cons y ys ih =>
    rw [pushUntilMatch, push_eq P y hopen, outlookFirst, whenTold_cons h, bind_assoc]
    refine (s.attempt.alike_feed P.respects_sameButLog m none [y]).precedes_of_returns
      (ensures_receive hm P.panicsOnly_true y h hopen).returns ?_
    rintro a ⟨hsound, hreplayed⟩
    refine precedes_moveOn hm none _ hsound hopen (fun hsome => absurd hsome Bool.false_ne_true)
      (fun _ => hreplayed) (Or.inl rfl) ?_ (fun f rest s' => Run.returns_pure rfl) ?_
    · rintro ⟨found, s'⟩
      cases found with
      | nil => exact grows_pushUntilMatch P ys (before + 1) s'
      | cons first rest => exact Run.grows_pure _
    · intro s' hrest hended
      exact ih (before + 1) hrest (hended.trans hopen)

/-- **A search for all matches goes on from there.** It makes the same pushes up to the
one that makes a match certain, and that match is the first of all. -/
theorem pushUntilMatch_precedes_finish (P : Predicates π α μ ε) (ys : List α) (before : Nat)
    (s : Scanner m α) :
    (s.pushUntilMatch P ys before).Precedes Eq (fun result found => result.1 = found.head?)
      (s.finish P ys) := by
  induction ys generalizing before s with
  | nil =>
    rw [finish_nil, pushUntilMatch]
    refine (Run.alike_eq (s.close P)).precedes ?_
    rintro ⟨found, s'⟩
    simp only [pure_bind, List.append_nil]
    exact Run.precedes_pure (fun _ _ henv => congrArg _ henv) (Run.grows_pure _)
      (Run.returns_pure rfl)
  | cons y ys ih =>
    rw [finish_cons, pushUntilMatch]
    refine (Run.alike_eq (s.push P y)).precedes ?_
    rintro ⟨found, s'⟩
    cases found with
    | nil =>
      simp only [List.nil_append, bind_pure]
      exact ih (before + 1) s'
    | cons first rest =>
      refine Run.precedes_pure (fun _ _ henv => congrArg _ henv) ?_ ?_
      · exact (grows_finish P ys s').bind fun _ => Run.grows_pure _
      · exact Run.returns_bind fun later => Run.returns_pure rfl

/-! ## Out of a push -/

/-- Of the pushes of some elements the last one returns matches, of which `f` is the first
one, and no other push returns any. -/
inductive Certain (P : Predicates π α μ ε) : Scanner m α → Env π α μ → List α → Match α →
    Env π α μ → Prop where
  | now {s s' : Scanner m α} {env env' : Env π α μ} {x : α} {f : Match α} {later : List (Match α)}
    (h : (s.push P x).outcome env = (.ok (f :: later, s'), env')) : Certain P s env [x] f env'
  | later {s s₁ : Scanner m α} {env env₁ env' : Env π α μ} {x : α} {taken : List α} {f : Match α}
    (h : (s.push P x).outcome env = (.ok ([], s₁), env₁)) (hrest : Certain P s₁ env₁ taken f env') :
    Certain P s env (x :: taken) f env'

/-- Whatever would arrive behind them is never asked for. -/
theorem Certain.outcome_pushUntilMatch {env env' : Env π α μ} {taken : List α} {f : Match α}
    (h : Certain P s env taken f env') (rest : List α) (before : Nat) :
    (s.pushUntilMatch P (taken ++ rest) before).outcome env =
      (.ok (some f, before + taken.length), env') := by
  induction h generalizing before with
  | now h =>
    rw [List.cons_append, pushUntilMatch, Run.outcome_bind_of_ok h]
    rfl
  | later h hrest ih =>
    rw [List.cons_append, pushUntilMatch, Run.outcome_bind_of_ok h]
    refine (ih (before + 1)).trans ?_
    rw [List.length_cons, Nat.add_assoc, Nat.add_comm 1]

/-- A match that is returned comes out of a push, or at the end if no push returns one. -/
theorem certain_of_pushUntilMatch {env env' : Env π α μ} {ys : List α} {before n : Nat}
    {f : Match α}
    (h : (s.pushUntilMatch P ys before).outcome env = (.ok (some f, n), env')) :
    (∃ taken, taken <+: ys ∧ n = before + taken.length ∧ Certain P s env taken f env') ∨
      n = before + ys.length ∧ ∀ taken g env₁, taken <+: ys → ¬ Certain P s env taken g env₁ := by
  induction ys generalizing before s env with
  | nil =>
    refine Or.inr ⟨?_, ?_⟩
    · rw [pushUntilMatch] at h
      rcases hclose : (s.close P).outcome env with ⟨result, env₁⟩
      cases result with
      | error cause =>
        rw [Run.outcome_bind_of_error hclose] at h
        cases h
      | ok result =>
        rw [Run.outcome_bind_of_ok hclose, Run.outcome_pure] at h
        injection h with h
        injection h with h
        injection h with _ h
        exact h.symm
    · intro taken g env₁ htaken hcertain
      rw [List.prefix_nil.1 htaken] at hcertain
      cases hcertain
  | cons y ys ih =>
    rw [pushUntilMatch] at h
    rcases hpush : (s.push P y).outcome env with ⟨result, env₁⟩
    cases result with
    | error cause =>
      rw [Run.outcome_bind_of_error hpush] at h
      cases h
    | ok result =>
      rw [Run.outcome_bind_of_ok hpush] at h
      obtain ⟨found, s'⟩ := result
      cases found with
      | cons first later =>
        -- This push is the one.
        cases h
        exact Or.inl ⟨[y], ⟨ys, rfl⟩, rfl, .now hpush⟩
      | nil =>
        rcases ih h with ⟨taken, htaken, hn, hcertain⟩ | ⟨hn, hnever⟩
        · refine Or.inl ⟨y :: taken, List.cons_prefix_cons.2 ⟨rfl, htaken⟩, ?_,
            .later hpush hcertain⟩
          rw [hn, List.length_cons]
          omega
        · refine Or.inr ⟨?_, ?_⟩
          · rw [hn, List.length_cons]
            omega
          · intro taken g env₂ htaken hcertain
            cases hcertain with
            | now h' =>
              obtain ⟨rfl, -⟩ := List.cons_prefix_cons.1 htaken
              rw [hpush] at h'
              cases h'
            | later h' hrest =>
              obtain ⟨rfl, htaken'⟩ := List.cons_prefix_cons.1 htaken
              rw [hpush] at h'
              cases h'
              exact hnever _ g env₂ htaken' hrest

/-- No element is taken that is not there, and the match ends among those taken. -/
theorem ensures_pushUntilMatch {may : ε → Prop} (hm : m.automaton.Linked) (hP : P.PanicsOnly may)
    (ys : List α) (h : AtRest P s) (hopen : s.ended = false) :
    (s.pushUntilMatch P ys s.position).Ensures may fun result =>
      result.2 ≤ s.position + ys.length ∧ ∀ f, result.1 = some f → f.last < result.2 := by
  induction ys generalizing s with
  | nil =>
    refine (ensures_close hm hP h hopen).bind ?_
    rintro ⟨found, s'⟩ ⟨hrest, -, hadvances⟩
    refine Run.ensures_pure ⟨Nat.le_refl _, ?_⟩
    intro f hf
    have hlast := (hadvances.ordered.bounds f (List.mem_of_head? hf)).2.2
    have hposition : s'.position = s.position := hadvances.position_eq
    rw [← hposition]
    exact Nat.lt_of_lt_of_le hlast hrest.start_le
  | cons y ys ih =>
    rw [pushUntilMatch]
    refine (ensures_push hm hP y h hopen).bind ?_
    rintro ⟨found, s'⟩ ⟨hrest, hopen', hadvances⟩
    have hposition : s'.position = s.position + 1 := hadvances.position_eq
    have hlength : s.position + (y :: ys).length = s'.position + ys.length := by
      rw [hposition, List.length_cons]
      omega
    rw [hlength, ← hposition]
    cases found with
    | nil => exact ih hrest hopen'
    | cons first later =>
      refine Run.ensures_pure ⟨Nat.le_add_right _ _, ?_⟩
      rintro f ⟨rfl⟩
      have hlast := (hadvances.ordered.bounds first List.mem_cons_self).2.2
      exact Nat.lt_of_lt_of_le hlast hrest.start_le

end Scanner

/-! ## The whole input -/

namespace Matcher

/-- Of the pushes of some elements into a new scanner, which is started in `env`, the last
one returns matches, of which `f` is the first one, and no other push returns any. What
they leave behind is `env'`. -/
def CertainAfter (m : Matcher π) (P : Predicates π α μ ε) (env : Env π α μ) (taken : List α)
    (f : Match α) (env' : Env π α μ) : Prop :=
  ∃ s : Scanner m α, Scanner.begin m = .ok s ∧ s.Certain P env taken f env'

section Once

variable {m : Matcher π}

/-- A walk that stops at the first match is a scanner with nothing pushed into it, which
is at rest. -/
theorem exists_firstMatchOnce_eq (hm : m.automaton.Linked) (P : Predicates π α μ ε)
    (input : List α) :
    ∃ s : Scanner m α, Scanner.begin m = .ok s ∧ s.AtRest P ∧ s.ended = false ∧
      s.position = 0 ∧ m.firstMatchOnce P input = s.pushUntilMatch P input s.position := by
  obtain ⟨s, hbegin, hrest, hopen, hposition, -⟩ := Scanner.exists_begin_eq_ok (α := α) hm P
  refine ⟨s, hbegin, hrest, hopen, hposition, ?_⟩
  rw [firstMatchOnce, scanner, hbegin, Run.ofChecked_ok_bind, hposition]

/-- **The first match in one walk.** -/
theorem firstMatch_precedes_firstMatchOnce (hm : m.automaton.Linked) (P : Predicates π α μ ε)
    (input : List α) :
    (m.firstMatch P input).Precedes Env.SameButLog (fun first result => result.1 = first)
      (m.firstMatchOnce P input) := by
  obtain ⟨s, hbegin, hrest, hopen, -, honce⟩ := exists_firstMatchOnce_eq hm P input
  have hfirst : m.firstMatch P input = m.lengthAhead P 0 input >>=
      Search.firstAfter P (Search.ofList input) := Search.first_eq hm (Search.ofList input)
  rw [honce, hfirst]
  exact (Scanner.precedes_pushUntilMatch hm input s.position hrest hopen).of_alike
    (Scanner.alike_whenTold_begin hm P hbegin input
      (Search.alike_firstAfter P.respects_sameButLog)).symm

theorem firstMatchOnce_precedes_allMatchesOnce (m : Matcher π) (P : Predicates π α μ ε)
    (input : List α) :
    (m.firstMatchOnce P input).Precedes Eq (fun result found => result.1 = found.head?)
      (m.allMatchesOnce P input) :=
  (Run.alike_eq m.scanner).precedes fun s => Scanner.pushUntilMatch_precedes_finish P input 0 s

variable {P : Predicates π α μ ε} {env env' : Env π α μ} {input taken : List α} {f : Match α}

/-- What the walk returns is the first match. -/
theorem firstMatch_of_firstMatchOnce (hm : m.automaton.Linked) {found : Option (Match α)} {n : Nat}
    (h : ((m.firstMatchOnce P input).outcome env).1 = .ok (found, n)) :
    ((m.firstMatch P input).outcome env).1 = .ok found := by
  obtain ⟨first, hok, hsame⟩ := (firstMatch_precedes_firstMatchOnce hm P input).exists_ok
    (Env.SameButLog.refl env) h
  rw [hok, ← hsame]

/-- The walk takes no more than there is, and its match ends among what it has taken. -/
theorem ensures_firstMatchOnce {may : ε → Prop} (hm : m.automaton.Linked)
    (hP : P.PanicsOnly may) (input : List α) :
    (m.firstMatchOnce P input).Ensures may fun result =>
      result.2 ≤ input.length ∧ ∀ f, result.1 = some f → f.last < result.2 := by
  obtain ⟨s, -, hrest, hopen, hposition, honce⟩ := exists_firstMatchOnce_eq hm P input
  have hbounds := Scanner.ensures_pushUntilMatch hm hP input hrest hopen
  rw [← honce, hposition, Nat.zero_add] at hbounds
  exact hbounds

/-- The walk stops with the push that makes a match certain. -/
theorem CertainAfter.outcome_firstMatchOnce (h : m.CertainAfter P env taken f env')
    (hinput : taken <+: input) :
    (m.firstMatchOnce P input).outcome env = (.ok (some f, taken.length), env') := by
  obtain ⟨s, hbegin, hcertain⟩ := h
  obtain ⟨rest, rfl⟩ := hinput
  rw [firstMatchOnce, scanner, hbegin, Run.ofChecked_ok_bind,
    hcertain.outcome_pushUntilMatch rest 0, Nat.zero_add]

/-- A match comes out of the last push, or at the end if no push returns one. -/
theorem certainAfter_of_firstMatchOnce (hm : m.automaton.Linked) {n : Nat}
    (h : ((m.firstMatchOnce P input).outcome env).1 = .ok (some f, n)) :
    (∃ env', m.CertainAfter P env (input.take n) f env') ∨
      n = input.length ∧
        ∀ taken g env', taken <+: input → ¬ m.CertainAfter P env taken g env' := by
  obtain ⟨s, hbegin, -, -, hposition, honce⟩ := exists_firstMatchOnce_eq hm P input
  have houtcome : (s.pushUntilMatch P input s.position).outcome env =
      (.ok (some f, n), ((m.firstMatchOnce P input).outcome env).2) := by
    rw [← honce, ← h]
  rw [hposition] at houtcome
  rcases Scanner.certain_of_pushUntilMatch houtcome with
    ⟨taken, htaken, hn, hcertain⟩ | ⟨hn, hnever⟩
  · rw [Nat.zero_add] at hn
    rw [hn, ← List.prefix_iff_eq_take.1 htaken]
    exact Or.inl ⟨_, s, hbegin, hcertain⟩
  · rw [Nat.zero_add] at hn
    refine Or.inr ⟨hn, ?_⟩
    rintro taken g env' htaken ⟨s', hbegin', hcertain⟩
    rw [hbegin] at hbegin'
    cases hbegin'
    exact hnever taken g env' htaken hcertain

/-- **Stopping early.** Whatever the predicates do, looking for the first match makes
evaluations with which those of one walk begin, and the walk makes evaluations with which
those of a search for all matches begin. If the walk returns, then what it returns is the
first match. If the match came out of a push, then it ends among the elements that were
pushed so far, and the walk does the same with every input that begins with them. -/
theorem firstMatchOnce_agrees (p : Pattern π) (P : Predicates π α μ ε) (input : List α)
    (env : Env π α μ) :
    (((ofPattern p).firstMatch P input).outcome env).2.calls.toList <+:
        (((ofPattern p).firstMatchOnce P input).outcome env).2.calls.toList ∧
      (((ofPattern p).firstMatchOnce P input).outcome env).2.calls.toList <+:
        (((ofPattern p).allMatches P input).outcome env).2.calls.toList ∧
      (∀ found n, (((ofPattern p).firstMatchOnce P input).outcome env).1 = .ok (found, n) →
        (((ofPattern p).firstMatch P input).outcome env).1 = .ok found ∧
        (((ofPattern p).hasMatchOnce P input).outcome env).1 = .ok found.isSome ∧
        (((ofPattern p).hasMatch P input).outcome env).1 = .ok found.isSome ∧
        n ≤ input.length ∧
        ∀ f, found = some f → f.last < n ∧
          ((∃ env', (ofPattern p).CertainAfter P env (input.take n) f env') ∨
            n = input.length ∧ ∀ taken g env', taken <+: input →
              ¬ (ofPattern p).CertainAfter P env taken g env')) ∧
      ∀ taken f env', taken <+: input → (ofPattern p).CertainAfter P env taken f env' →
        f.last < taken.length ∧ taken.length ≤ input.length ∧
        ∀ other, taken <+: other →
          ((ofPattern p).firstMatchOnce P other).outcome env =
              (.ok (some f, taken.length), env') ∧
            (((ofPattern p).firstMatch P other).outcome env).1 = .ok (some f) := by
  have hm : (ofPattern p).automaton.Linked := Automaton.linked_ofPattern p
  have hfirst := firstMatch_precedes_firstMatchOnce hm P input
  have hall := firstMatchOnce_precedes_allMatchesOnce (ofPattern p) P input
  refine ⟨hfirst.calls_prefix (Env.SameButLog.refl env) fun _ _ h => h.calls, ?_, ?_, ?_⟩
  · -- The walk for all matches makes the evaluations of the search for all matches.
    rw [← (alike_allMatchesOnce hm P input env env (Env.SameButLog.refl env)).2.calls]
    exact hall.calls_prefix rfl fun _ _ h => congrArg _ h
  · intro found n h
    have hok := firstMatch_of_firstMatchOnce hm h
    obtain ⟨hle, hlast⟩ := (ensures_firstMatchOnce hm P.panicsOnly_true input).returns env _ h
    refine ⟨hok, Run.result_bind_pure h fun result => result.1.isSome,
      Run.result_bind_pure hok Option.isSome, hle, ?_⟩
    rintro f rfl
    exact ⟨hlast f rfl, certainAfter_of_firstMatchOnce hm h⟩
  · intro taken f env' htaken hcertain
    have hlast := (ensures_firstMatchOnce hm P.panicsOnly_true input).returns env
      (some f, taken.length)
      (congrArg Prod.fst (hcertain.outcome_firstMatchOnce htaken))
    refine ⟨hlast.2 f rfl, htaken.length_le, ?_⟩
    intro other hother
    have houtcome := hcertain.outcome_firstMatchOnce hother
    exact ⟨houtcome, firstMatch_of_firstMatchOnce hm (congrArg Prod.fst houtcome)⟩

/-- A single one is certain after the element behind it, whatever follows. -/
theorem firstMatchOnce_agrees_one :
    ∃ env', (ofPattern (Pattern.predicate ())).CertainAfter
        (.ofTest (fun _ b => b) : Predicates Unit Bool Unit Unit) ⟨(), #[], #[]⟩ [true, false]
        ⟨0, 0, [true]⟩ env' ∧
      ∀ other, [true, false] <+: other →
        ((ofPattern (Pattern.predicate ())).firstMatchOnce
            (.ofTest (fun _ b => b) : Predicates Unit Bool Unit Unit) other).outcome
              ⟨(), #[], #[]⟩ = (.ok (some ⟨0, 0, [true]⟩, 2), env') := by
  have hone : (((ofPattern (Pattern.predicate ())).firstMatchOnce
      (.ofTest (fun _ b => b) : Predicates Unit Bool Unit Unit) [true, false, true]).outcome
        ⟨(), #[], #[]⟩).1 = .ok (some ⟨0, 0, [true]⟩, 2) := by decide +kernel
  obtain ⟨-, -, hreturns, hlater⟩ := firstMatchOnce_agrees (Pattern.predicate ())
    (.ofTest (fun _ b => b) : Predicates Unit Bool Unit Unit) [true, false, true] ⟨(), #[], #[]⟩
  obtain ⟨-, -, -, -, hfound⟩ := hreturns _ _ hone
  rcases (hfound _ rfl).2 with ⟨env', hcertain⟩ | ⟨hend, -⟩
  · exact ⟨env', hcertain, fun other hother =>
      ((hlater _ _ env' ⟨[true], rfl⟩ hcertain).2.2 other hother).1⟩
  · exact absurd hend (by decide)

end Once

end Matcher

end Motif
