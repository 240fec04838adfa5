/-
What is true of a scanner after every call.

A scanner counts in four places: how many elements have arrived, where the current
attempt began, from where on elements are kept, and how far the attempt has come.
While dead attempts are being replaced these numbers drift apart, and `Sound` says
how far they may; at the end of a call the elements before the current attempt are
forgotten and they agree again.

The invariant is proved from the inside out: for one replacement (`alike_emit`,
`alike_catchUp`), for the loop of replacements (`ensures_replaceDead`), for a push
and for the end (`ensures_push`, `ensures_close`), and then for any calls in any
order. What the attempt of a scanner has become step by step is what a new attempt
becomes that is run over the elements that are kept, provided that the predicates
answer by the element alone (`Replayed`).
-/
import Motif.Scanner
import Motif.Proofs.Attempt
import Motif.Proofs.Matches

set_option autoImplicit false

namespace Motif

variable {π α μ ε : Type}

namespace Scanner

variable {m : Matcher π} {s : Scanner m α}

/-! ## Counters and buffer -/

/-- The elements from the start of the current attempt on. -/
def pending (s : Scanner m α) : List α := s.buffer.toList.drop (s.start - s.origin)

/-- How far the counters of a scanner may drift apart while dead attempts are being
replaced. -/
structure Counted (s : Scanner m α) : Prop where
  /-- Elements are kept from the start of the attempt on, at least. -/
  origin_le : s.origin ≤ s.start
  /-- The attempt begins at an element that has arrived, or behind the last one. -/
  start_le : s.start ≤ s.position
  /-- Elements are kept up to the last one. -/
  position_eq : s.position = s.origin + s.buffer.size

/-- The counters are right, and the attempt is the one that they speak of. -/
structure Sound (s : Scanner m α) : Prop extends Counted s where
  /-- The attempt claims no more than it has consumed. -/
  fits : s.attempt.Fits m
  attempt_start : s.attempt.start = s.start
  /-- The attempt has seen no element that has not arrived. -/
  attempt_le : s.attempt.position ≤ s.position
  /-- An attempt that is alive has seen all of them. -/
  attempt_eq : s.attempt.alive = true → s.attempt.position = s.position

theorem Counted.length_pending (h : s.Counted) : s.pending.length = s.position - s.start := by
  have := h.origin_le
  have := h.position_eq
  rw [pending, List.length_drop, Array.length_toList]
  omega

theorem Counted.passed_eq (h : s.Counted) : s.passed = .ok (s.start - s.origin) := by
  have hle : s.start - s.origin ≤ s.buffer.size := by
    have := h.start_le
    have := h.position_eq
    omega
  rw [passed, distance_of_le h.origin_le]
  exact if_pos hle

theorem Counted.ahead_eq (h : s.Counted) : s.ahead = .ok s.pending := by
  rw [ahead, h.passed_eq]
  exact congrArg Except.ok (toList_keptPast s _)

/-- The scanner after the elements before the attempt are forgotten. -/
def trimmed (s : Scanner m α) : Scanner m α :=
  { s with origin := s.start, buffer := s.keptPast (s.start - s.origin) }

theorem Counted.trim_eq (h : s.Counted) : s.trim = .ok s.trimmed := by
  rw [trim, h.passed_eq]
  rfl

theorem toList_buffer_trimmed (s : Scanner m α) : s.trimmed.buffer.toList = s.pending :=
  toList_keptPast s _

theorem pending_trimmed (s : Scanner m α) : s.trimmed.pending = s.pending := by
  rw [pending, toList_buffer_trimmed]
  change s.pending.drop (s.start - s.start) = s.pending
  rw [Nat.sub_self, List.drop_zero]

theorem Sound.trimmed (h : s.Sound) : s.trimmed.Sound := by
  refine ⟨⟨Nat.le_refl _, h.start_le, ?_⟩, h.fits, h.attempt_start, h.attempt_le, h.attempt_eq⟩
  have hsize : s.trimmed.buffer.size = s.position - s.start := by
    rw [← Array.length_toList, toList_buffer_trimmed, h.length_pending]
  have := h.start_le
  change s.position = s.start + s.trimmed.buffer.size
  omega

/-- The attempt claims no more than what lies ahead of its start. -/
theorem Sound.best_le (h : s.Sound) {n : Nat} (hn : s.attempt.best = some n) :
    n ≤ s.pending.length := by
  have := h.fits.best_le n hn
  have := h.attempt_start
  have := h.attempt_le
  rw [h.length_pending]
  omega

theorem Sound.stride_le (h : s.Sound) (hlt : s.start < s.position) :
    s.start + stride s.attempt.best ≤ s.position := by
  have hpos : 0 < s.pending.length := by
    rw [h.length_pending]
    omega
  have hstride := Motif.stride_le (fun k hk => h.best_le hk) hpos
  rw [h.length_pending] at hstride
  omega

theorem Sound.counted_past (h : s.Sound) (hlt : s.start < s.position) : s.past.Counted :=
  ⟨Nat.le_trans h.origin_le (Nat.le_add_right _ _), h.stride_le hlt, h.position_eq⟩

theorem Counted.pending_past (h : s.Counted) :
    s.past.pending = s.pending.drop (stride s.attempt.best) := by
  have := h.origin_le
  unfold pending past
  rw [List.drop_drop]
  congr 1
  dsimp only
  omega

/-! ## One replacement -/

section Replacement

variable {P : Predicates π α μ ε} {may : ε → Prop}

theorem Sound.exists_taken (h : s.Sound) :
    ∃ taken, Match.taken? s.start s.pending s.attempt.best = .ok taken ∧
      Match.Ordered s.start (s.start + stride s.attempt.best) taken.toList :=
  Match.exists_taken?_eq_ok s.start fun _ hn => h.best_le hn

/-- But for the log, emitting is taking the match of the attempt. -/
theorem Sound.alike_emit (h : s.Sound) :
    (s.emit : Run π α μ ε (Option (Match α))).Alike Env.SameButLog
      (Run.ofChecked (Match.taken? s.start s.pending s.attempt.best)) := by
  obtain ⟨taken, htaken, -⟩ := h.exists_taken
  have hstart : ¬ s.attempt.start ≠ s.start := fun hne => hne h.attempt_start
  rw [emit, if_neg hstart, h.ahead_eq]
  simp only [Run.ofChecked_ok_bind, htaken]
  cases taken with
  | none => exact Run.alike_pure none
  | some found =>
    exact (Run.alike_report_pure _).bind fun _ => Run.alike_pure (some found)

/-- A new attempt at the start of the scanner, run over what is kept. -/
def retry (P : Predicates π α μ ε) (length : Option Nat) (s : Scanner m α) :
    Run π α μ ε Attempt := do
  let attempt ← Attempt.run P m length s.start s.pending
  return if length.isSome then attempt.giveUp else attempt

/-- But for the log, catching up is a new attempt over what is kept. -/
theorem Counted.alike_catchUp (h : s.Counted) (P : Predicates π α μ ε) (length : Option Nat) :
    (s.catchUp P length).Alike Env.SameButLog (s.retry P length) := by
  rw [catchUp, distance_of_le h.start_le, h.ahead_eq]
  simp only [Run.ofChecked_ok_bind]
  exact (Run.alike_report_pure _).bind fun _ =>
    (Attempt.alike_run P.respects_sameButLog m length s.start s.pending).bind fun _ =>
      Run.alike_pure _

/-- The attempt is what a new attempt becomes that is run over what is kept, if the
predicates answer by the element alone. -/
def Replayed (P : Predicates π α μ ε) (s : Scanner m α) : Prop :=
  (∃ holds, P.Answers holds) → (Attempt.run P m none s.start s.pending).Gives s.attempt

theorem ensures_retry (hm : m.automaton.Linked) (hP : P.PanicsOnly may) (length : Option Nat)
    (h : s.Counted) :
    (s.retry P length).Ensures may fun attempt =>
      ({ s with attempt } : Scanner m α).Sound ∧ (length.isSome = true → attempt.alive = false) ∧
        (length = none → ({ s with attempt } : Scanner m α).Replayed P) := by
  have hrun := (Attempt.ensures_run hm hP length s.start s.pending).and_gives
    (C := ∃ holds, P.Answers holds)
    fun ⟨_, hanswers⟩ => Attempt.alike_run hanswers.respects m length s.start s.pending
  have hlast : s.start + s.pending.length = s.position := by
    have := h.start_le
    rw [h.length_pending]
    omega
  refine hrun.bind ?_
  rintro a ⟨⟨hfits, hstart, hle, heq⟩, hgives⟩
  rw [hlast] at hle heq
  cases length with
  | none =>
    -- The attempt goes on, and it is a new attempt by definition.
    refine Run.ensures_pure ⟨⟨⟨h.origin_le, h.start_le, h.position_eq⟩, hfits, hstart, hle, heq⟩,
      fun hsome => absurd hsome Bool.false_ne_true, fun _ => hgives⟩
  | some l =>
    -- The attempt has seen all there is, and it is given up.
    have hfits' : a.giveUp.Fits m :=
      ⟨hfits.seeds_lt, hfits.active_lt, hfits.start_le, hfits.best_le⟩
    exact Run.ensures_pure ⟨⟨⟨h.origin_le, h.start_le, h.position_eq⟩, hfits', hstart, hle,
      fun halive => absurd halive Bool.false_ne_true⟩, fun _ => rfl,
      fun hnone => absurd hnone (Option.some_ne_none l)⟩

theorem ensures_catchUp (hm : m.automaton.Linked) (hP : P.PanicsOnly may) (length : Option Nat)
    (h : s.Counted) :
    (s.catchUp P length).Ensures may fun attempt =>
      ({ s with attempt } : Scanner m α).Sound ∧ (length.isSome = true → attempt.alive = false) ∧
        (length = none → ({ s with attempt } : Scanner m α).Replayed P) :=
  (ensures_retry hm hP length h).of_alike (h.alike_catchUp P length) Env.SameButLog.refl

/-- What the loop of replacements has done, once it ends. -/
structure Replaced (P : Predicates π α μ ε) (length : Option Nat) (s : Scanner m α)
    (found : List (Match α)) (s' : Scanner m α) : Prop where
  sound : s'.Sound
  position_eq : s'.position = s.position
  origin_eq : s'.origin = s.origin
  buffer_eq : s'.buffer = s.buffer
  ended_eq : s'.ended = s.ended
  /-- The matches lie where the scan has passed over. -/
  ordered : Match.Ordered s.start s'.start found
  /-- The loop ends with an attempt that is alive, or with no element left. -/
  settled : s'.attempt.alive = true ∨ s'.start = s'.position
  /-- Attempts that know the length are given up. -/
  given_up : length.isSome = true → s'.attempt.alive = false
  /-- Attempts that do not know the length have caught up. -/
  replayed : length = none → Replayed P s'

/-- One round more in front of the loop. -/
theorem Replaced.after_past {length : Option Nat} {attempt : Attempt}
    {taken found : List (Match α)} {s' : Scanner m α}
    (htaken : Match.Ordered s.start s.past.start taken)
    (h : Replaced P length { s.past with attempt } found s') :
    Replaced P length s (taken ++ found) s' :=
  ⟨h.sound, h.position_eq, h.origin_eq, h.buffer_eq, h.ended_eq, htaken.append h.ordered,
    h.settled, h.given_up, h.replayed⟩

/-- The loop stops at once with an attempt that is alive, or with no element left. -/
theorem replaced_refl {length : Option Nat} (h : s.Sound)
    (hsettled : s.attempt.alive = true ∨ s.start = s.position)
    (hdead : length.isSome = true → s.attempt.alive = false)
    (hreplayed : length = none → Replayed P s) : Replaced P length s [] s :=
  ⟨h, rfl, rfl, rfl, rfl, Nat.le_refl _, hsettled, hdead, hreplayed⟩

/-- **The loop of replacements.** One round takes the match of the dead attempt, moves
behind it and lets a new attempt catch up, and that is sound again. -/
theorem ensures_replaceDead (hm : m.automaton.Linked) (hP : P.PanicsOnly may)
    (length : Option Nat) (s : Scanner m α) (h : s.Sound)
    (hdead : length.isSome = true → s.attempt.alive = false)
    (hreplayed : length = none → Replayed P s) :
    (s.replaceDead P length).Ensures may fun result =>
      Replaced P length s result.1 result.2 := by
  fun_induction replaceDead P length s with
  | case1 s halive => exact Run.ensures_pure (replaced_refl h (Or.inl halive) hdead hreplayed)
  | case2 s hdead' hle =>
    have hempty : s.start = s.position := Nat.le_antisymm h.start_le hle
    exact Run.ensures_pure (replaced_refl h (Or.inr hempty) hdead hreplayed)
  | case3 s hdead' hle ih =>
    obtain ⟨taken, htaken, hordered⟩ := h.exists_taken
    have hemit : (s.emit : Run π α μ ε (Option (Match α))).Ensures may (· = taken) :=
      (Run.ensures_ofChecked (Q := (· = taken)) htaken rfl).of_alike h.alike_emit
        Env.SameButLog.refl
    -- Behind the dead attempt only the counters are right; catching up makes it sound.
    have hpast := h.counted_past (Nat.not_le.1 hle)
    refine hemit.bind ?_
    rintro _ rfl
    refine (ensures_catchUp hm hP length hpast).bind ?_
    rintro attempt ⟨hsound, hgiven, hreplay⟩
    refine (ih attempt hsound hgiven hreplay).bind ?_
    intro result hresult
    exact Run.ensures_pure (hresult.after_past hordered)

end Replacement

/-! ## One call -/

section Call

variable {P : Predicates π α μ ε} {may : ε → Prop}

/-- What a scanner is like between calls. -/
structure AtRest (P : Predicates π α μ ε) (s : Scanner m α) : Prop extends Sound s where
  /-- What lies before the attempt is forgotten. -/
  origin_eq : s.origin = s.start
  /-- Before the end the attempt is alive, unless it has no element to go on with. -/
  settled : s.ended = false → s.attempt.alive = true ∨ s.start = s.position
  /-- Before the end the attempt is what a new one would be. -/
  replayed : s.ended = false → Replayed P s
  /-- After the end nothing is kept and nothing goes on. -/
  after_end : s.ended = true → s.start = s.position ∧ s.attempt.alive = false

theorem AtRest.pending_eq (h : AtRest P s) : s.pending = s.buffer.toList := by
  rw [pending, h.origin_eq, Nat.sub_self, List.drop_zero]

/-- What happens to a scanner while `xs` arrive and `found` is returned. -/
structure Advances (s : Scanner m α) (xs : List α) (found : List (Match α))
    (s' : Scanner m α) : Prop where
  position_eq : s'.position = s.position + xs.length
  /-- Of what was kept and what has arrived, everything before the attempt is gone. -/
  buffer_eq : s'.buffer.toList = (s.buffer.toList ++ xs).drop (s'.start - s.start)
  /-- The matches lie where the scan has passed over. -/
  ordered : Match.Ordered s.start s'.start found

theorem Advances.start_le {xs : List α} {found : List (Match α)} {s' : Scanner m α}
    (h : Advances s xs found s') : s.start ≤ s'.start := h.ordered.le

theorem advances_refl (s : Scanner m α) : Advances s [] [] s := by
  refine ⟨rfl, ?_, Nat.le_refl _⟩
  rw [Nat.sub_self, List.drop_zero, List.append_nil]

theorem Advances.trans {s₁ s₂ s₃ : Scanner m α} {xs ys : List α} {found found' : List (Match α)}
    (hs₁ : AtRest P s₁) (hs₂ : AtRest P s₂) (h : Advances s₁ xs found s₂)
    (h' : Advances s₂ ys found' s₃) : Advances s₁ (xs ++ ys) (found ++ found') s₃ := by
  have hle := h.start_le
  have hle' := h'.start_le
  refine ⟨?_, ?_, ?_⟩
  · rw [h'.position_eq, h.position_eq, List.length_append, Nat.add_assoc]
  · -- The first part only loses what had arrived by then.
    have hkept : s₂.start - s₁.start ≤ (s₁.buffer.toList ++ xs).length := by
      have := hs₁.position_eq
      have := hs₁.origin_eq
      have := hs₂.start_le
      have := h.position_eq
      rw [List.length_append, Array.length_toList]
      omega
    have hsplit : s₃.start - s₁.start = (s₂.start - s₁.start) + (s₃.start - s₂.start) := by omega
    rw [h'.buffer_eq, h.buffer_eq, ← List.append_assoc, hsplit, ← List.drop_drop,
      List.drop_append_of_le_length hkept]
  · exact h.ordered.append h'.ordered

/-- Once the elements before the attempt are forgotten, the scanner is at rest. -/
theorem Replaced.atRest {length : Option Nat} {found : List (Match α)} {s' : Scanner m α}
    (h : Replaced P length s found s') (hended : s.ended = length.isSome) :
    AtRest P s'.trimmed := by
  have hended' : s'.trimmed.ended = length.isSome := h.ended_eq.trans hended
  refine ⟨h.sound.trimmed, rfl, fun _ => h.settled, ?_, ?_⟩
  · intro hopen
    have hnone : length = none := by
      rw [hended'] at hopen
      exact Option.isNone_iff_eq_none.1 (Option.isSome_eq_false_iff.1 hopen)
    have hreplayed := h.replayed hnone
    rw [Replayed] at hreplayed ⊢
    rw [pending_trimmed]
    exact hreplayed
  · intro hclosed
    have hdead := h.given_up (hended' ▸ hclosed)
    -- The loop did not stop at an attempt that is alive, so it ran out of elements.
    refine ⟨h.settled.resolve_left ?_, hdead⟩
    rw [hdead]
    exact Bool.false_ne_true

/-- **Dealing with dead attempts.** -/
theorem ensures_moveOn (hm : m.automaton.Linked) (hP : P.PanicsOnly may)
    (length : Option Nat) (s : Scanner m α) (h : s.Sound) (hended : s.ended = length.isSome)
    (hdead : length.isSome = true → s.attempt.alive = false)
    (hreplayed : length = none → Replayed P s) :
    (s.moveOn P length).Ensures may fun result =>
      AtRest P result.2 ∧ result.2.ended = s.ended ∧ result.2.position = s.position ∧
        result.2.buffer.toList = s.buffer.toList.drop (result.2.start - s.origin) ∧
        Match.Ordered s.start result.2.start result.1 := by
  refine (ensures_replaceDead hm hP length s h hdead hreplayed).bind ?_
  rintro ⟨found, s'⟩ hresult
  have htrim := hresult.sound.trim_eq
  refine (Run.ensures_ofChecked (Q := (· = s'.trimmed)) htrim rfl).bind ?_
  rintro _ rfl
  refine Run.ensures_pure ⟨hresult.atRest hended, hresult.ended_eq, hresult.position_eq, ?_,
    hresult.ordered⟩
  rw [toList_buffer_trimmed, pending, hresult.buffer_eq, hresult.origin_eq]
  rfl

/-- What an attempt has read is what it reads next, added to what it read before. -/
theorem push_eq (P : Predicates π α μ ε) (x : α) (hopen : s.ended = false) :
    s.push P x = (do
      let attempt ← s.attempt.feed P m none [x]
      moveOn P none { s.receive x with attempt }) := by
  rw [push, if_neg (by rw [hopen]; exact Bool.false_ne_true), Attempt.feed_singleton]
  split <;> rfl

theorem toList_buffer_receive (s : Scanner m α) (x : α) :
    (s.receive x).buffer.toList = s.buffer.toList ++ [x] := Array.toList_push

theorem AtRest.pending_receive (h : AtRest P s) (x : α) :
    (s.receive x).pending = s.pending ++ [x] := by
  change (s.receive x).buffer.toList.drop (s.start - s.origin) = _
  rw [h.pending_eq, toList_buffer_receive, h.origin_eq, Nat.sub_self, List.drop_zero]

/-- An element that arrives is read by the attempt, and nothing comes apart. -/
theorem ensures_receive (hm : m.automaton.Linked) (hP : P.PanicsOnly may) (x : α)
    (h : AtRest P s) (hopen : s.ended = false) :
    (s.attempt.feed P m none [x]).Ensures may fun attempt =>
      ({ s.receive x with attempt } : Scanner m α).Sound ∧
        ({ s.receive x with attempt } : Scanner m α).Replayed P := by
  have hfeed := (Attempt.ensures_feed hm hP none [x] h.fits).and_gives
    (C := ∃ holds, P.Answers holds)
    fun ⟨_, hanswers⟩ => s.attempt.alike_feed hanswers.respects m none [x]
  refine hfeed.mono ?_
  rintro a ⟨hcont, hgives⟩
  refine ⟨⟨⟨h.origin_le, Nat.le_succ_of_le h.start_le, ?_⟩, hcont.fits,
    hcont.start_eq.trans h.attempt_start, ?_, ?_⟩, ?_⟩
  · have := h.position_eq
    change s.position + 1 = s.origin + (s.buffer.push x).size
    rw [Array.size_push]
    omega
  · exact Nat.le_trans hcont.position_le (Nat.add_le_add_right h.attempt_le 1)
  · intro halive
    -- An attempt that is alive now was alive before, and had seen everything.
    have hread := hcont.position_eq halive
    rw [h.attempt_eq (hcont.alive_of halive), List.length_singleton] at hread
    exact hread
  · intro hanswers
    have hpending : ({ s.receive x with attempt := a } : Scanner m α).pending =
        s.pending ++ [x] := h.pending_receive x
    rw [hpending]
    exact Attempt.gives_run_append (h.replayed hopen hanswers) (hgives hanswers)

/-- **A push before the end.** -/
theorem ensures_push (hm : m.automaton.Linked) (hP : P.PanicsOnly may) (x : α)
    (h : AtRest P s) (hopen : s.ended = false) :
    (s.push P x).Ensures may fun result =>
      AtRest P result.2 ∧ result.2.ended = false ∧ Advances s [x] result.1 result.2 := by
  rw [push_eq P x hopen]
  refine (ensures_receive hm hP x h hopen).bind ?_
  rintro a ⟨hsound, hreplayed⟩
  refine (ensures_moveOn hm hP none _ hsound hopen
    (fun hsome => absurd hsome Bool.false_ne_true) fun _ => hreplayed).mono ?_
  rintro r ⟨hrest, hended, hposition, hkept, hordered⟩
  refine ⟨hrest, hended.trans hopen, hposition, ?_, hordered⟩
  rw [hkept]
  change (s.receive x).buffer.toList.drop (r.2.start - s.origin) = _
  rw [toList_buffer_receive, h.origin_eq]

/-- When the end is told the attempt is concluded, and nothing comes apart. -/
theorem AtRest.exists_conclude_eq_ok (hm : m.automaton.Linked) (h : AtRest P s) :
    ∃ attempt, s.attempt.conclude m s.position = .ok attempt ∧ attempt.alive = false ∧
      ({ s with attempt, ended := true } : Scanner m α).Sound := by
  obtain ⟨a, hconclude, hfits, hstart, hposition, hdead⟩ :=
    Attempt.exists_conclude_eq_ok hm h.fits h.attempt_eq
  refine ⟨a, hconclude, hdead, ⟨h.origin_le, h.start_le, h.position_eq⟩, hfits,
    hstart.trans h.attempt_start, ?_, fun halive => ?_⟩
  · exact Nat.le_trans (Nat.le_of_eq hposition) h.attempt_le
  · exact absurd halive (by rw [hdead]; exact Bool.false_ne_true)

theorem close_eq (P : Predicates π α μ ε) (hopen : s.ended = false) {attempt : Attempt}
    (hconclude : s.attempt.conclude m s.position = .ok attempt) :
    s.close P = moveOn P (some s.position) { s with attempt, ended := true } := by
  rw [close, if_neg (by rw [hopen]; exact Bool.false_ne_true), hconclude, Run.ofChecked_ok_bind]

/-- **The end.** -/
theorem ensures_close (hm : m.automaton.Linked) (hP : P.PanicsOnly may) (h : AtRest P s)
    (hopen : s.ended = false) :
    (s.close P).Ensures may fun result =>
      AtRest P result.2 ∧ result.2.ended = true ∧ Advances s [] result.1 result.2 := by
  obtain ⟨a, hconclude, hdead, hsound⟩ := h.exists_conclude_eq_ok hm
  rw [close_eq P hopen hconclude]
  refine (ensures_moveOn hm hP (some s.position) _ hsound rfl (fun _ => hdead)
    fun hnone => absurd hnone (Option.some_ne_none s.position)).mono ?_
  rintro r ⟨hrest, hended, hposition, hkept, hordered⟩
  refine ⟨hrest, hended, hposition, ?_, hordered⟩
  rw [hkept, List.append_nil, h.origin_eq]

/-- A scanner that has ended ignores what is pushed into it. -/
theorem ensures_push_of_ended (x : α) (hended : s.ended = true) :
    (s.push P x).Ensures may (· = ([], s)) := by
  rw [push, if_pos hended]
  exact (Run.ensures_report (Q := fun _ => True) trivial).bind fun _ _ => Run.ensures_pure rfl

theorem ensures_close_of_ended (hended : s.ended = true) :
    (s.close P).Ensures may (· = ([], s)) := by
  rw [close, if_pos hended]
  exact (Run.ensures_report (Q := fun _ => True) trivial).bind fun _ _ => Run.ensures_pure rfl

/-- A scanner that nothing has been pushed into is at rest. -/
theorem exists_begin_eq_ok (hm : m.automaton.Linked) (P : Predicates π α μ ε) :
    ∃ s : Scanner m α, begin m = .ok s ∧ AtRest P s ∧ s.ended = false ∧ s.position = 0 ∧
      s.start = 0 ∧ s.buffer.toList = [] ∧ Attempt.begin m none 0 = .ok s.attempt := by
  obtain ⟨a, hbegin, hfits, hstart, hposition⟩ := Attempt.exists_begin_eq_ok hm none 0
  have hreplayed : Replayed P (⟨0, 0, 0, #[], a, false⟩ : Scanner m α) := by
    intro _ env
    change ((Attempt.run P m none 0 []).outcome env).1 = _
    rw [Attempt.run, hbegin]
    rfl
  refine ⟨⟨0, 0, 0, #[], a, false⟩, ?_, ?_, rfl, rfl, rfl, rfl, hbegin⟩
  · rw [begin, hbegin]
    rfl
  · exact ⟨⟨⟨Nat.le_refl _, Nat.le_refl _, rfl⟩, hfits, hstart, Nat.le_of_eq hposition,
      fun _ => hposition⟩, rfl, fun _ => Or.inr rfl, fun _ => hreplayed,
      fun hended => absurd hended Bool.false_ne_true⟩

end Call

end Scanner

end Motif
