/-
What a scanner writes to the log.

A scanner works in rounds. Each round ends one attempt: its match is emitted or its
position is passed over, and the next attempt is started at once. The log shows both, so
it can be read off the rounds (`Recorded`), whenever they take place, during a push or at
the end.

A search makes the same rounds without a log. It has to, because the matches say where a
scan has stood: it moves on behind each match and by one element otherwise, so two scans
over the same stretch that take the same matches stand at the same positions
(`Visits.unique`). That a scanner and a search find the same matches is known, and what
a scanner writes therefore tells at which offsets a search makes its attempts
(`Matcher.exists_tracks`).

What a run writes is said by one more judgement about runs (`Run.Writes`): it adds some
records to the log, and they fit what it returns.
-/
import Mathlib.Data.List.Chain
import Motif.Proofs.Streaming

set_option autoImplicit false

namespace Motif

variable {π α μ ε β γ : Type}

/-! ## What is added to the log -/

/-- The surroundings are the same, and this is their log. -/
structure Env.WithLog (events : Array (Event π)) (env env' : Env π α μ) : Prop where
  eq : env = env'
  events_eq : env.events = events

theorem Predicates.respects_withLog (P : Predicates π α μ ε) (events : Array (Event π)) :
    P.Respects (Env.WithLog events) := by
  rintro handle x env _ ⟨rfl, hevents⟩
  exact ⟨rfl, rfl, hevents⟩

namespace Run

/-- If the run returns, then it has added some records to the log, and they fit what it
returns. -/
def Writes (r : Run π α μ ε β) (Q : β → List (Event π) → Prop) : Prop :=
  ∀ env b after, r.outcome env = (.ok b, after) →
    ∃ records, after.events.toList = env.events.toList ++ records ∧ Q b records

theorem writes_pure {Q : β → List (Event π) → Prop} {b : β} (h : Q b []) :
    (pure b : Run π α μ ε β).Writes Q := by
  intro env b' after hb
  cases hb
  exact ⟨[], (List.append_nil _).symm, h⟩

theorem writes_fail {Q : β → List (Event π) → Prop} (cause : Fault) :
    (fail cause : Run π α μ ε β).Writes Q := by
  intro env b after hb
  cases hb

theorem writes_ofChecked {Q : β → List (Event π) → Prop} {c : Except Fault β}
    (h : ∀ b, c = .ok b → Q b []) : (ofChecked c : Run π α μ ε β).Writes Q := by
  cases c with
  | ok b => exact writes_pure (h b rfl)
  | error cause => exact writes_fail cause

theorem writes_report {Q : Unit → List (Event π) → Prop} {event : Event π} (h : Q () [event]) :
    (report event : Run π α μ ε Unit).Writes Q := by
  intro env b after hb
  cases hb
  exact ⟨[event], Array.toList_push, h⟩

/-- What follows a part adds its records behind those of the part. -/
theorem Writes.bind {Q : β → List (Event π) → Prop} {Q' : γ → List (Event π) → Prop}
    {r : Run π α μ ε β} {next : β → Run π α μ ε γ} (h : r.Writes Q)
    (hnext : ∀ b records, Q b records → (next b).Writes fun c later => Q' c (records ++ later)) :
    (r >>= next).Writes Q' := by
  intro env c after hc
  obtain ⟨b, between, hr, hrest⟩ := exists_of_bind_eq_ok hc
  obtain ⟨records, hevents, hQ⟩ := h env b between hr
  obtain ⟨later, hevents', hQ'⟩ := hnext b records hQ between c after hrest
  exact ⟨records ++ later, by rw [hevents', hevents, List.append_assoc], hQ'⟩

theorem Writes.and_returns {Q : β → List (Event π) → Prop} {Q' : β → Prop} {r : Run π α μ ε β}
    (h : r.Writes Q) (h' : r.Returns Q') : r.Writes fun b records => Q b records ∧ Q' b := by
  intro env b after hb
  obtain ⟨records, hevents, hQ⟩ := h env b after hb
  exact ⟨records, hevents, hQ, h' env b (congrArg Prod.fst hb)⟩

/-- The run writes nothing to the log. -/
def Silent (r : Run π α μ ε β) : Prop := r.Writes fun _ records => records = []

theorem silent_ofChecked (c : Except Fault β) : (ofChecked c : Run π α μ ε β).Silent :=
  writes_ofChecked fun _ _ => rfl

/-- A run that does what its evaluations do is silent. -/
theorem silent_of_alike {r : Run π α μ ε β} (h : ∀ events, r.Alike (Env.WithLog events) r) :
    r.Silent := by
  intro env b after hb
  have hevents := (h env.events env env ⟨rfl, rfl⟩).2.events_eq
  rw [hb] at hevents
  exact ⟨[], by rw [List.append_nil, hevents], rfl⟩

theorem Silent.bind {Q : γ → List (Event π) → Prop} {r : Run π α μ ε β}
    {next : β → Run π α μ ε γ} (h : r.Silent) (hnext : ∀ b, (next b).Writes Q) :
    (r >>= next).Writes Q := by
  refine Writes.bind h ?_
  rintro b _ rfl
  exact hnext b

end Run

/-! ## Rounds -/

/-- One round of a scan. -/
structure Round (α : Type) where
  /-- The position of the attempt. -/
  position : Nat
  /-- The match that is taken, unless the position is passed over. -/
  taken : Option (Match α)

/-- The position of the next attempt. -/
def Round.next (r : Round α) : Nat :=
  match r.taken with
  | some f => f.last + 1
  | none => r.position + 1

/-- The rounds lead from one position to another. A match that is taken begins where the
attempt began. -/
def Visits : Nat → Nat → List (Round α) → Prop
  | low, high, [] => low = high
  | low, high, r :: rest =>
    r.position = low ∧ (∀ f ∈ r.taken, f.first = low ∧ low ≤ f.last) ∧ Visits r.next high rest

/-- The matches that are taken in some rounds. -/
def Round.found (rounds : List (Round α)) : List (Match α) := rounds.filterMap taken

theorem Round.found_cons (r : Round α) (rest : List (Round α)) :
    found (r :: rest) = r.taken.toList ++ found rest := by
  unfold found
  cases h : r.taken with
  | none =>
    rw [List.filterMap_cons_none h]
    rfl
  | some f =>
    rw [List.filterMap_cons_some h]
    rfl

namespace Visits

variable {low middle high : Nat} {rounds rounds' rest : List (Round α)} {r : Round α}

theorem append (h : Visits low middle rounds) (h' : Visits middle high rounds') :
    Visits low high (rounds ++ rounds') := by
  induction rounds generalizing low with
  | nil =>
    cases h
    exact h'
  | cons r rest ih => exact ⟨h.1, h.2.1, ih h.2.2⟩

/-- What a scan takes from an attempt lies where the attempt was made, and it goes on behind
it. -/
theorem cons {start : Nat} {best : Option Nat} (h : Visits (start + stride best) high rest)
    {ahead : List α} {taken : Option (Match α)}
    (htaken : Match.taken? start ahead best = .ok taken) :
    Visits start high (⟨start, taken⟩ :: rest) := by
  cases taken with
  | none =>
    refine ⟨rfl, by simp, ?_⟩
    rcases Match.of_taken?_eq_none htaken with rfl | rfl
    · exact h
    · exact h
  | some f =>
    obtain ⟨-, -, hfirst, hlast, -⟩ := Match.of_taken?_eq_some htaken
    have hstride := one_le_stride best
    refine ⟨rfl, ?_, ?_⟩
    · rintro _ ⟨rfl⟩
      exact ⟨hfirst, by omega⟩
    · rw [← hlast] at h
      exact h

/-- Every round gets on. -/
theorem lt_next (h : Visits low high (r :: rest)) : low < r.next := by
  obtain ⟨hposition, htaken, -⟩ := h
  unfold Round.next
  split
  · rename_i f hf
    have := (htaken f hf).2
    omega
  · omega

theorem le (h : Visits low high rounds) : low ≤ high := by
  induction rounds generalizing low with
  | nil => exact Nat.le_of_eq h
  | cons r rest ih => exact Nat.le_of_lt (Nat.lt_of_lt_of_le h.lt_next (ih h.2.2))

/-- What is taken lies at the position of the first attempt or behind it. -/
theorem le_first (h : Visits low high rounds) : ∀ f ∈ Round.found rounds, low ≤ f.first := by
  induction rounds generalizing low with
  | nil =>
    intro f hf
    cases hf
  | cons r rest ih =>
    intro f hf
    rw [Round.found_cons] at hf
    rcases List.mem_append.1 hf with hf | hf
    · exact Nat.le_of_eq (h.2.1 f (Option.mem_toList.1 hf)).1.symm
    · exact Nat.le_trans (Nat.le_of_lt h.lt_next) (ih h.2.2 f hf)

/-- The match that is taken first is taken in the first round if it begins there. -/
theorem taken_eq (h : Visits low high (r :: rest)) :
    r.taken = (Round.found (r :: rest)).head?.filter fun f => f.first = low := by
  rw [Round.found_cons]
  cases htaken : r.taken with
  | none =>
    rw [Option.toList_none, List.nil_append]
    refine (Option.filter_eq_none_iff.2 fun f hf => ?_).symm
    -- All other matches begin behind the first round.
    have hle := h.2.2.le_first f (List.mem_of_mem_head? hf)
    have hlt := h.lt_next
    simp only [decide_eq_true_eq]
    omega
  | some f =>
    rw [Option.toList_some, List.singleton_append, List.head?_cons, eq_comm,
      Option.filter_eq_some_iff]
    exact ⟨rfl, decide_eq_true (h.2.1 f htaken).1⟩

/-- **The matches say where a scan has stood.** -/
theorem unique (h : Visits low high rounds) (h' : Visits low high rounds')
    (hfound : Round.found rounds = Round.found rounds') : rounds = rounds' := by
  induction rounds generalizing low rounds' with
  | nil =>
    cases rounds' with
    | nil => rfl
    | cons r' rest' =>
      have hle := h'.2.2.le
      have hlt := h'.lt_next
      have hlow : low = high := h
      omega
  | cons r rest ih =>
    cases rounds' with
    | nil =>
      have hle := h.2.2.le
      have hlt := h.lt_next
      have hlow : low = high := h'
      omega
    | cons r' rest' =>
      -- Both rounds stand in the same place, and the matches say what each of them took.
      have hround : r = r' := by
        have htaken := h.taken_eq
        rw [hfound, ← h'.taken_eq] at htaken
        have hposition := h.1.trans h'.1.symm
        cases r
        cases r'
        cases hposition
        cases htaken
        rfl
      subst hround
      have hrest : Round.found rest = Round.found rest' := by
        rw [Round.found_cons, Round.found_cons] at hfound
        exact List.append_cancel_left hfound
      rw [ih h.2.2 h'.2.2 hrest]

/-- Each attempt begins where the round before it led, and the last round leads to the
end. -/
theorem cons_map_next (h : Visits low high rounds) :
    low :: rounds.map Round.next = rounds.map Round.position ++ [high] := by
  induction rounds generalizing low with
  | nil => exact congrArg (fun n => [n]) h
  | cons r rest ih =>
    rw [List.map_cons, List.map_cons, ih h.2.2, h.1]
    rfl

theorem pairwise_next (h : Visits low high rounds) :
    (low :: rounds.map Round.next).Pairwise (· < ·) := by
  refine List.isChain_iff_pairwise.1 ?_
  induction rounds generalizing low with
  | nil => exact List.isChain_singleton low
  | cons r rest ih => exact List.isChain_cons_cons.2 ⟨h.lt_next, ih h.2.2⟩

/-- From the beginning, the rounds lead to the positions of all attempts but the first,
and then to the end. -/
theorem map_next_eq (h : Visits 0 high rounds) :
    rounds.map Round.next =
      (rounds.map Round.position).filter (0 < ·) ++ if high = 0 then [] else [high] := by
  cases rounds with
  | nil =>
    have hhigh : 0 = high := h
    rw [if_pos hhigh.symm]
    rfl
  | cons r rest =>
    have hnext := h.cons_map_next
    -- Only the first attempt stands at zero.
    have hbehind : ∀ n ∈ rest.map Round.position ++ [high], 0 < n := by
      have hpairwise := h.pairwise_next
      rw [hnext, List.map_cons, List.cons_append, h.1] at hpairwise
      exact (List.pairwise_cons.1 hpairwise).1
    have hfilter : (rest.map Round.position).filter (0 < ·) = rest.map Round.position :=
      List.filter_eq_self.2 fun n hn =>
        decide_eq_true (hbehind n (List.mem_append_left _ hn))
    have hhigh : high ≠ 0 :=
      Nat.pos_iff_ne_zero.1 (hbehind high (List.mem_append_right _ (List.mem_singleton.2 rfl)))
    rw [if_neg hhigh, List.map_cons (f := Round.position), h.1, List.filter_cons_of_neg (by simp),
      hfilter]
    rw [List.map_cons (f := Round.position), List.cons_append] at hnext
    exact (List.cons.inj hnext).2

end Visits

/-! ## What the rounds leave in the log -/

/-- The positions of the match that was emitted. -/
def Event.emitted? : Event π → Option (Nat × Nat)
  | emitting first last => some (first, last)
  | _ => none

/-- The position of the attempt that was started. -/
def Event.restarted? : Event π → Option Nat
  | restarting start _ => some start
  | _ => none

/-- The records that some rounds leave: the match if there is one, and then the next
attempt. -/
inductive Recorded : List (Round α) → List (Event π) → Prop where
  | nil : Recorded [] []
  | taken (position : Nat) (f : Match α) (replayed : Nat) {rounds : List (Round α)}
      {records : List (Event π)} (h : Recorded rounds records) :
    Recorded (⟨position, some f⟩ :: rounds)
      (.emitting f.first f.last :: .restarting (f.last + 1) replayed :: records)
  | passed (position : Nat) (replayed : Nat) {rounds : List (Round α)}
      {records : List (Event π)} (h : Recorded rounds records) :
    Recorded (⟨position, none⟩ :: rounds) (.restarting (position + 1) replayed :: records)

namespace Recorded

variable {rounds rounds' : List (Round α)} {records records' : List (Event π)}

theorem append (h : Recorded rounds records) (h' : Recorded rounds' records') :
    Recorded (rounds ++ rounds') (records ++ records') := by
  induction h with
  | nil => exact h'
  | taken position f replayed _ ih => exact .taken position f replayed ih
  | passed position replayed _ ih => exact .passed position replayed ih

theorem level_eq (h : Recorded rounds records) : ∀ e ∈ records, e.level = .trace := by
  induction h with
  | nil => exact List.forall_mem_nil _
  | taken _ _ _ _ ih => exact List.forall_mem_cons.2 ⟨rfl, List.forall_mem_cons.2 ⟨rfl, ih⟩⟩
  | passed _ _ _ ih => exact List.forall_mem_cons.2 ⟨rfl, ih⟩

theorem emitted_eq (h : Recorded rounds records) :
    records.filterMap Event.emitted? =
      (Round.found rounds).map fun f => (f.first, f.last) := by
  induction h with
  | nil => rfl
  | taken _ f _ _ ih => exact congrArg ((f.first, f.last) :: ·) ih
  | passed _ _ _ ih => exact ih

theorem restarted_eq (h : Recorded rounds records) :
    records.filterMap Event.restarted? = rounds.map Round.next := by
  induction h with
  | nil => rfl
  | taken _ f _ _ ih => exact congrArg ((f.last + 1) :: ·) ih
  | passed position _ _ ih => exact congrArg ((position + 1) :: ·) ih

/-- Behind each match comes the attempt that begins behind it. -/
theorem followed (h : Recorded rounds records) {before after : List (Event π)}
    {first last : Nat} (hrecords : records = before ++ .emitting first last :: after) :
    ∃ replayed rest, after = .restarting (last + 1) replayed :: rest := by
  induction h generalizing before with
  | nil => exact absurd hrecords (by simp)
  | taken _ f replayed _ ih =>
    cases before with
    | nil =>
      cases hrecords
      exact ⟨replayed, _, rfl⟩
    | cons e before =>
      -- The second record of the round is no match, so the match is in a later round.
      cases before with
      | nil => cases hrecords
      | cons e' before => exact ih (List.cons.inj (List.cons.inj hrecords).2).2
  | passed _ _ _ ih =>
    cases before with
    | nil => cases hrecords
    | cons e before => exact ih (List.cons.inj hrecords).2

end Recorded

/-! ## The rounds of a search -/

namespace Search

variable {m : Matcher π}

/-- The rounds of a search: where it makes its attempts, and what it takes from each. -/
def rounds (P : Predicates π α μ ε) (s : Search m α) : Run π α μ ε (List (Round α)) :=
  if _ : s.ahead = [] then pure []
  else do
    let (best, taken) ← s.probe P
    let rest ← rounds P (s.past best)
    return ⟨s.position, taken⟩ :: rest
termination_by s.ahead.length
decreasing_by exact length_past_lt ‹_› best

/-- Searching is going through the rounds and keeping the matches. -/
theorem all_eq_rounds (P : Predicates π α μ ε) (s : Search m α) :
    s.all P = s.rounds P >>= fun made => pure (Round.found made) := by
  by_cases h : s.ahead = []
  · rw [all, rounds, dif_pos h, dif_pos h, pure_bind]
    rfl
  · rw [all, rounds, dif_neg h, dif_neg h, bind_assoc]
    refine congrArg _ (funext ?_)
    rintro ⟨best, taken⟩
    dsimp only
    rw [all_eq_rounds P (s.past best), bind_assoc, bind_assoc]
    refine congrArg _ (funext fun made => ?_)
    rw [pure_bind, pure_bind, Round.found_cons]
termination_by s.ahead.length
decreasing_by exact length_past_lt h best

/-- A search that returns has gone through its rounds. -/
theorem exists_rounds_of_all {P : Predicates π α μ ε} {s : Search m α} {env after : Env π α μ}
    {found : List (Match α)} (h : (s.all P).outcome env = (.ok found, after)) :
    ∃ made, (s.rounds P).outcome env = (.ok made, after) ∧ Round.found made = found := by
  rw [all_eq_rounds] at h
  obtain ⟨made, between, hmade, hpure⟩ := Run.exists_of_bind_eq_ok h
  cases hpure
  exact ⟨made, hmade, rfl⟩

/-- **The rounds of a search** lead to the end of the input. -/
theorem returns_rounds (hm : m.automaton.Linked) (P : Predicates π α μ ε) (s : Search m α) :
    (s.rounds P).Returns (Visits s.position (s.position + s.ahead.length)) := by
  by_cases h : s.ahead = []
  · rw [rounds, dif_pos h, h]
    exact Run.returns_pure rfl
  · rw [rounds, dif_neg h, probe, bind_assoc]
    refine (Matcher.ensures_lengthAhead hm P.panicsOnly_true _ _).returns.bind ?_
    intro best hbest
    rw [bind_assoc]
    refine (Run.returns_ofChecked (Q := (Match.taken? s.position s.ahead best = .ok ·))
      fun _ => id).bind ?_
    intro taken htaken
    rw [pure_bind]
    refine (returns_rounds hm P (s.past best)).bind ?_
    intro rest hrest
    rw [position_past_add_length h hbest] at hrest
    exact Run.returns_pure (hrest.cons htaken)
termination_by s.ahead.length
decreasing_by exact length_past_lt h best

end Search

/-! ## The rounds of a scanner -/

/-- A scan got from one position to another, took the matches and left the records. -/
def Scanned (low high : Nat) (found : List (Match α)) (records : List (Event π)) : Prop :=
  ∃ rounds : List (Round α), Visits low high rounds ∧ Round.found rounds = found ∧
    Recorded rounds records

theorem scanned_refl (low : Nat) : Scanned low low ([] : List (Match α)) ([] : List (Event π)) :=
  ⟨[], rfl, rfl, .nil⟩

theorem Scanned.append {low middle high : Nat} {found found' : List (Match α)}
    {records records' : List (Event π)} (h : Scanned low middle found records)
    (h' : Scanned middle high found' records') :
    Scanned low high (found ++ found') (records ++ records') := by
  obtain ⟨rounds, hvisits, hfound, hrecorded⟩ := h
  obtain ⟨rounds', hvisits', hfound', hrecorded'⟩ := h'
  refine ⟨rounds ++ rounds', hvisits.append hvisits', ?_, hrecorded.append hrecorded'⟩
  rw [← hfound, ← hfound']
  exact List.filterMap_append

namespace Scanner

variable {m : Matcher π} {P : Predicates π α μ ε} {s : Scanner m α}

/-- Emitting writes a record if there is a match. -/
theorem writes_emit (s : Scanner m α) :
    (s.emit : Run π α μ ε (Option (Match α))).Writes fun taken records =>
      (∃ elements, Match.taken? s.start elements s.attempt.best = .ok taken) ∧
        records = (taken.map fun f => .emitting f.first f.last).toList := by
  unfold emit
  split
  · exact (Run.writes_fail (Q := fun _ _ => False) _).bind fun _ _ => False.elim
  · refine (Run.silent_ofChecked _).bind fun elements => ?_
    refine (Run.writes_ofChecked (Q := fun taken records =>
      Match.taken? s.start elements s.attempt.best = .ok taken ∧ records = [])
        fun _ htaken => ⟨htaken, rfl⟩).bind ?_
    rintro taken _ ⟨htaken, rfl⟩
    cases taken with
    | none => exact Run.writes_pure ⟨⟨elements, htaken⟩, rfl⟩
    | some f =>
      refine (Run.writes_report (Q := fun _ records => records = [.emitting f.first f.last])
        rfl).bind ?_
      rintro _ _ rfl
      exact Run.writes_pure ⟨⟨elements, htaken⟩, rfl⟩

/-- Catching up writes a record, and the attempt that catches up writes nothing. -/
theorem writes_catchUp (P : Predicates π α μ ε) (length : Option Nat) (s : Scanner m α) :
    (s.catchUp P length).Writes fun _ records =>
      ∃ replayed, records = [.restarting s.start replayed] := by
  unfold catchUp
  refine (Run.silent_ofChecked _).bind fun replayed => ?_
  refine (Run.writes_report (Q := fun _ records => records = [.restarting s.start replayed])
    rfl).bind ?_
  rintro _ _ rfl
  refine (Run.silent_ofChecked _).bind fun elements => ?_
  refine Run.Silent.bind (Run.silent_of_alike fun events =>
    Attempt.alike_run (P.respects_withLog events) m length s.start elements) fun attempt => ?_
  exact Run.writes_pure ⟨replayed, rfl⟩

/-- **One round**: a match is emitted, or the position is passed over, and the next attempt
is started. -/
theorem scanned_round {elements : List α} {taken : Option (Match α)}
    (htaken : Match.taken? s.start elements s.attempt.best = .ok taken) (replayed : Nat) :
    Scanned s.start s.past.start taken.toList
      ((taken.map fun f => .emitting f.first f.last).toList ++
        [.restarting s.past.start replayed] : List (Event π)) := by
  have hend : Visits (s.start + stride s.attempt.best) s.past.start ([] : List (Round α)) := rfl
  have hvisits := hend.cons htaken
  refine ⟨_, hvisits, ?_, ?_⟩
  · rw [Round.found_cons]
    exact List.append_nil _
  · have hnext : (⟨s.start, taken⟩ : Round α).next = s.past.start := hvisits.2.2
    rw [← hnext]
    cases taken with
    | none => exact .passed s.start replayed .nil
    | some f => exact .taken s.start f replayed .nil

/-- **The loop of replacements.** -/
theorem writes_replaceDead (P : Predicates π α μ ε) (length : Option Nat) (s : Scanner m α) :
    (s.replaceDead P length).Writes fun result records =>
      Scanned s.start result.2.start result.1 records := by
  fun_induction replaceDead P length s with
  | case1 s halive => exact Run.writes_pure (scanned_refl s.start)
  | case2 s hdead hle => exact Run.writes_pure (scanned_refl s.start)
  | case3 s hdead hle ih =>
    refine s.writes_emit.bind ?_
    rintro taken emitted ⟨⟨elements, htaken⟩, rfl⟩
    refine (s.past.writes_catchUp P length).bind ?_
    rintro attempt _ ⟨replayed, rfl⟩
    refine (ih attempt).bind ?_
    rintro ⟨later, s'⟩ records hscanned
    refine Run.writes_pure ?_
    have hround := (scanned_round (π := π) htaken replayed).append hscanned
    simpa only [List.append_assoc, List.append_nil] using hround

theorem start_of_trim {s' : Scanner m α} (h : s.trim = .ok s') : s'.start = s.start := by
  rw [trim] at h
  cases hpassed : s.passed with
  | error cause =>
    rw [hpassed] at h
    cases h
  | ok n =>
    rw [hpassed] at h
    cases h
    rfl

/-- Forgetting elements writes nothing. -/
theorem writes_moveOn (P : Predicates π α μ ε) (length : Option Nat) (s : Scanner m α) :
    (s.moveOn P length).Writes fun result records =>
      Scanned s.start result.2.start result.1 records := by
  refine (s.writes_replaceDead P length).bind ?_
  rintro ⟨found, s'⟩ records hscanned
  refine (Run.writes_ofChecked (Q := fun s'' records => s''.start = s'.start ∧ records = [])
    fun s'' htrim => ⟨start_of_trim htrim, rfl⟩).bind ?_
  rintro s'' _ ⟨hstart, rfl⟩
  refine Run.writes_pure ?_
  rw [hstart, List.append_nil, List.append_nil]
  exact hscanned

theorem writes_push (P : Predicates π α μ ε) (x : α) (hopen : s.ended = false) :
    (s.push P x).Writes fun result records =>
      Scanned s.start result.2.start result.1 records := by
  rw [push_eq P x hopen]
  refine Run.Silent.bind (Run.silent_of_alike fun events =>
    s.attempt.alike_feed (P.respects_withLog events) m none [x]) fun attempt => ?_
  exact writes_moveOn P none { s.receive x with attempt }

theorem writes_close (P : Predicates π α μ ε) (hopen : s.ended = false) :
    (s.close P).Writes fun result records =>
      Scanned s.start result.2.start result.1 records := by
  rw [close, if_neg (by rw [hopen]; exact Bool.false_ne_true)]
  refine (Run.silent_ofChecked _).bind fun attempt => ?_
  exact writes_moveOn P (some s.position) { s with attempt, ended := true }

/-- **The rest of the input.** The induction is on what is still to arrive; a scanner that
has been told the end has come to it. -/
theorem writes_finish (hm : m.automaton.Linked) (ys : List α) {s : Scanner m α}
    (h : AtRest P s) (hopen : s.ended = false) :
    (s.finish P ys).Writes fun found records =>
      Scanned s.start (s.position + ys.length) found records := by
  induction ys generalizing s with
  | nil =>
    rw [finish_nil]
    refine ((writes_close P hopen).and_returns
      (ensures_close hm P.panicsOnly_true h hopen).returns).bind ?_
    rintro ⟨found, s'⟩ records ⟨hscanned, hrest, hended, hadvances⟩
    refine Run.writes_pure ?_
    have hend : s'.start = s.position := (hrest.after_end hended).1.trans hadvances.position_eq
    rw [List.append_nil, List.append_nil, ← hend]
    exact hscanned
  | cons y ys ih =>
    rw [finish_cons]
    refine ((writes_push P y hopen).and_returns
      (ensures_push hm P.panicsOnly_true y h hopen).returns).bind ?_
    rintro ⟨found, s'⟩ records ⟨hscanned, hrest, hopen', hadvances⟩
    refine (ih hrest hopen').bind ?_
    intro rest later hlater
    refine Run.writes_pure ?_
    have hposition : s'.position = s.position + 1 := hadvances.position_eq
    have hend : s'.position + ys.length = s.position + (y :: ys).length := by
      rw [hposition, List.length_cons]
      omega
    rw [hend] at hlater
    rw [List.append_nil]
    exact hscanned.append hlater

end Scanner

/-! ## The whole log -/

namespace Matcher

variable {m : Matcher π}

/-- **The rounds of a scanner** lead from the beginning of the input to its end. -/
theorem writes_allMatchesOnce (hm : m.automaton.Linked) (P : Predicates π α μ ε)
    (input : List α) :
    (m.allMatchesOnce P input).Writes (Scanned 0 input.length) := by
  obtain ⟨s, hbegin, hrest, hopen, hposition, hstart, -⟩ :=
    Scanner.exists_begin_eq_ok (α := α) hm P
  have hfinish := Scanner.writes_finish hm input hrest hopen
  rw [hstart, hposition, Nat.zero_add] at hfinish
  rw [allMatchesOnce_of_begin P input hbegin]
  exact hfinish

/-- What records say of the matches that were found in an input, and of the offsets at which
a search makes its attempts there. -/
structure Tracks (records : List (Event π)) (found : List (Match α)) (offsets : List Nat)
    (length : Nat) : Prop where
  level_eq : ∀ e ∈ records, e.level = .trace
  /-- The matches are emitted in their order. -/
  emitted_eq : records.filterMap Event.emitted? = found.map fun f => (f.first, f.last)
  /-- At once the next attempt is started behind the match. -/
  followed : ∀ before first last after, records = before ++ .emitting first last :: after →
    ∃ replayed rest, after = .restarting (last + 1) replayed :: rest
  /-- No offset is tried twice. -/
  pairwise : (records.filterMap Event.restarted?).Pairwise (· < ·)
  /-- The offsets of the search but for the first, and then the end of the input. -/
  restarted_eq : records.filterMap Event.restarted? =
    offsets.filter (0 < ·) ++ if length = 0 then [] else [length]

/-- What the rounds leave in the log says where they were made. -/
theorem tracks_of_recorded {length : Nat} {rounds : List (Round α)} {records : List (Event π)}
    (h : Visits 0 length rounds) (hrecorded : Recorded rounds records) :
    Tracks records (Round.found rounds) (rounds.map Round.position) length := by
  refine ⟨hrecorded.level_eq, hrecorded.emitted_eq, fun _ _ _ _ => hrecorded.followed, ?_, ?_⟩
  · rw [hrecorded.restarted_eq]
    exact (List.pairwise_cons.1 h.pairwise_next).2
  · rw [hrecorded.restarted_eq]
    exact h.map_next_eq

/-- **The log of a scanner.** As long as no predicate panics, searching an input in one walk
emits the matches that are returned, each at once followed by the next attempt; and the
attempts that are started are those that searching the input would make, except for the first
one, and one more at the end of the input. -/
theorem exists_tracks (p : Pattern π) {P : Predicates π α μ ε} (hP : P.NeverPanics)
    (input : List α) (env : Env π α μ) :
    ∃ found records made after after',
      ((ofPattern p).allMatchesOnce P input).outcome env = (.ok found, after) ∧
      after.events.toList = env.events.toList ++ records ∧
      ((Search.ofList input : Search (ofPattern p) α).rounds P).outcome env =
        (.ok made, after') ∧
      ((ofPattern p).allMatches P input).outcome env = (.ok (Round.found made), after') ∧
      Tracks records found (made.map Round.position) input.length := by
  have hm := Automaton.linked_ofPattern p
  obtain ⟨found, after', hall, -⟩ := (Search.ensures_all (m := ofPattern p) hm hP
    (Search.ofList input) List.drop_zero.symm).exists_outcome env
  obtain ⟨made, hmade, hfound⟩ := Search.exists_rounds_of_all hall
  have hvisits := Search.returns_rounds (m := ofPattern p) hm P (Search.ofList input) env made
    (congrArg Prod.fst hmade)
  change Visits 0 (0 + input.length) made at hvisits
  rw [Nat.zero_add] at hvisits
  -- The scanner finds the same matches, so its rounds are the same.
  obtain ⟨hsame, -⟩ := alike_allMatchesOnce (m := ofPattern p) hm P input env env
    (Env.SameButLog.refl env)
  have hresult : (((ofPattern p).allMatchesOnce P input).outcome env).1 = .ok found :=
    hsame.trans (congrArg Prod.fst hall)
  obtain ⟨records, hevents, rounds, hvisits', hfound', hrecorded⟩ :=
    writes_allMatchesOnce (m := ofPattern p) hm P input env found _ (Prod.ext hresult rfl)
  have heq : rounds = made := hvisits'.unique hvisits (hfound'.trans hfound.symm)
  subst heq
  subst hfound
  exact ⟨_, records, rounds, _, after', Prod.ext hresult rfl, hevents, hmade, hall,
    tracks_of_recorded hvisits hrecorded⟩

/-- The theorem for one or more ones in three bits. -/
theorem exists_tracks_plus_ones :
    (Predicates.ofTest (fun _ b => b) : Predicates Unit Bool Unit Unit).NeverPanics ∧
      ∃ found records made after after',
        ((ofPattern (Pattern.predicate ()).plus).allMatchesOnce
          (.ofTest (fun _ b => b) : Predicates Unit Bool Unit Unit)
          [true, false, true]).outcome ⟨(), #[], #[]⟩ = (.ok found, after) ∧
        after.events.toList = [] ++ records ∧
        ((Search.ofList [true, false, true] :
          Search (ofPattern (Pattern.predicate ()).plus) Bool).rounds
            (.ofTest (fun _ b => b) : Predicates Unit Bool Unit Unit)).outcome ⟨(), #[], #[]⟩ =
          (.ok made, after') ∧
        ((ofPattern (Pattern.predicate ()).plus).allMatches
          (.ofTest (fun _ b => b) : Predicates Unit Bool Unit Unit)
          [true, false, true]).outcome ⟨(), #[], #[]⟩ = (.ok (Round.found made), after') ∧
        Tracks records found (made.map Round.position) 3 :=
  ⟨(Predicates.answers_ofTest _).neverPanics,
    exists_tracks (Pattern.predicate ()).plus (Predicates.answers_ofTest _).neverPanics
      [true, false, true] ⟨(), #[], #[]⟩⟩

end Matcher

end Motif
