/-
Searching arriving input finds what searching all of it finds.

A scanner and a search do the same work at different times. To compare them, let a
scanner be in the middle of an input of which `ys` is still to arrive. What will be
found from then on can be said without a scanner: its attempt reads the rest and is
told the length at the end, its match is taken, and a search that has all of the
input goes on behind it (`outlook`). At the very beginning that is a search from the
beginning, since it makes no difference when an attempt learns the length.

Every part of a scanner keeps to the outlook. A dead attempt reads nothing, so its
match can be taken at once, and the search behind it begins with the attempt that
catches up (`alike_replaceDead`). An element that arrives moves from the rest of the
input into the buffer (`alike_finish`). No step evaluates a predicate that the search
would not evaluate in the same place, which is why the comparison holds for
predicates that remember or panic.
-/
import Motif.Proofs.Blocks
import Motif.Proofs.Search
import Motif.Proofs.Scanner

set_option autoImplicit false

namespace Motif

variable {π α μ ε β : Type}

namespace Scanner

variable {m : Matcher π} {P : Predicates π α μ ε} {s : Scanner m α}

/-! ## What is still to be found -/

/-- A search from the start of the current attempt, if `ys` is still to arrive. -/
def asSearch (s : Scanner m α) (ys : List α) : Search m α := ⟨s.start, s.pending ++ ys⟩

/-- What comes next once the attempt of the scanner has read `ys`, the rest of the input,
and has been told the length. -/
def whenTold (P : Predicates π α μ ε) (s : Scanner m α) (ys : List α)
    (next : Search m α → Option Nat → Run π α μ ε β) : Run π α μ ε β := do
  let best ← s.attempt.bestToldAtEnd P m (s.position + ys.length) ys
  next (s.asSearch ys) best

/-- What is found from now on, if `ys` is still to arrive. -/
def outlook (P : Predicates π α μ ε) (s : Scanner m α) (ys : List α) :
    Run π α μ ε (List (Match α)) := do
  let best ← s.attempt.bestToldAtEnd P m (s.position + ys.length) ys
  (s.asSearch ys).allAfter P best

theorem outlook_eq_whenTold (P : Predicates π α μ ε) (s : Scanner m α) (ys : List α) :
    s.outlook P ys = s.whenTold P ys (Search.allAfter P) := rfl

section WhenTold

variable {next : Search m α → Option Nat → Run π α μ ε β}

/-- What arrives is of no interest to a dead attempt. -/
theorem whenTold_of_dead (ys : List α) (hdead : s.attempt.alive = false) :
    s.whenTold P ys next = next (s.asSearch ys) s.attempt.best := by
  rw [whenTold, Attempt.bestToldAtEnd_of_dead _ ys hdead, pure_bind]

/-- An attempt that is told at the end of the input is concluded there. -/
theorem whenTold_nil {attempt : Attempt}
    (hconclude : s.attempt.conclude m s.position = .ok attempt)
    (hdead : attempt.alive = false) :
    s.whenTold P [] next =
      ({ s with attempt, ended := true } : Scanner m α).whenTold P [] next := by
  rw [whenTold_of_dead (s := { s with attempt, ended := true }) [] hdead, whenTold,
    Attempt.bestToldAtEnd, Attempt.feed, pure_bind, List.length_nil, Nat.add_zero, hconclude]
  rfl

/-- An element that arrives moves from the rest of the input into the buffer. -/
theorem whenTold_cons (h : AtRest P s) (y : α) (ys : List α) :
    s.whenTold P (y :: ys) next = (do
      let attempt ← s.attempt.feed P m none [y]
      ({ s.receive y with attempt } : Scanner m α).whenTold P ys next) := by
  have hlength : s.position + (y :: ys).length = (s.receive y).position + ys.length := by
    change s.position + (ys.length + 1) = s.position + 1 + ys.length
    omega
  have hsearch : s.asSearch (y :: ys) = (s.receive y).asSearch ys := by
    unfold asSearch
    rw [h.pending_receive, List.append_assoc]
    rfl
  unfold whenTold Attempt.bestToldAtEnd
  rw [hsearch, hlength, ← List.singleton_append, Attempt.feed_append]
  simp only [bind_assoc]
  rfl

/-- What is forgotten cannot be part of a match. -/
theorem whenTold_trimmed (ys : List α) : s.trimmed.whenTold P ys next = s.whenTold P ys next := by
  have hsearch : s.trimmed.asSearch ys = s.asSearch ys := by
    unfold asSearch
    rw [pending_trimmed]
    rfl
  unfold whenTold
  rw [hsearch]
  rfl

end WhenTold

theorem asSearch_past (h : s.Sound) (hlt : s.start < s.position) (ys : List α) :
    (s.asSearch ys).past s.attempt.best = s.past.asSearch ys := by
  have hle : stride s.attempt.best ≤ s.pending.length := by
    have := h.stride_le hlt
    rw [h.length_pending]
    omega
  unfold asSearch Search.past
  rw [h.toCounted.pending_past, List.drop_append_of_le_length hle]
  rfl

/-- A new attempt that catches up comes to what an attempt comes to that has all of the
input. -/
theorem alike_retry {R : Env π α μ → Env π α μ → Prop} (hm : m.automaton.Linked)
    (hP : P.Respects R) (h : s.Counted) {length : Option Nat} {ys : List α}
    (hlength : length = none ∨ length = some s.position ∧ ys = []) :
    (do
      let a ← s.retry P length
      a.bestToldAtEnd P m (s.position + ys.length) ys).Alike R
    (m.lengthAhead P s.start (s.pending ++ ys)) := by
  have hlast : s.start + s.pending.length = s.position := by
    have := h.start_le
    rw [h.length_pending]
    omega
  rcases hlength with rfl | ⟨rfl, rfl⟩
  · -- The attempt goes on with the elements that are still to arrive.
    have htold := Attempt.alike_toldAtEnd hm hP s.start (s.pending ++ ys)
    rw [List.length_append, ← Nat.add_assoc, hlast] at htold
    have heq : (do
        let a ← s.retry P none
        a.bestToldAtEnd P m (s.position + ys.length) ys) =
      (do
        let a ← Run.ofChecked (Attempt.begin m none s.start)
        a.bestToldAtEnd P m (s.position + ys.length) (s.pending ++ ys)) := by
      unfold retry Attempt.run Attempt.bestToldAtEnd
      simp only [bind_assoc, Attempt.feed_append, Option.isSome_none, Bool.false_eq_true,
        if_false, pure_bind]
    rw [heq]
    exact htold
  · -- The attempt has known the length from the beginning.
    have heq : (do
        let a ← s.retry P (some s.position)
        a.bestToldAtEnd P m (s.position + ([] : List α).length) []) =
      m.lengthAhead P s.start s.pending := by
      have hgiven : ∀ a : Attempt, a.giveUp.bestToldAtEnd P m
          (s.position + ([] : List α).length) [] = pure a.best :=
        fun a => Attempt.bestToldAtEnd_of_dead _ [] a.alive_giveUp
      unfold retry Matcher.lengthAhead
      simp only [bind_assoc, Option.isSome_some, if_true, pure_bind, hgiven, hlast]
    rw [heq, List.append_nil]
    exact m.alike_lengthAhead hP _ _

/-- **A new attempt that catches up** leads to where a search from its start leads. -/
theorem alike_whenTold_retry {R : Env π α μ → Env π α μ → Prop} (hm : m.automaton.Linked)
    (hP : P.Respects R) (h : s.Counted) {length : Option Nat} {ys : List α}
    (hlength : length = none ∨ length = some s.position ∧ ys = [])
    {next : Search m α → Option Nat → Run π α μ ε β}
    (hnext : ∀ s best, (next s best).Alike R (next s best)) :
    (do
      let attempt ← s.retry P length
      ({ s with attempt } : Scanner m α).whenTold P ys next).Alike R
    (m.lengthAhead P s.start (s.pending ++ ys) >>= next (s.asSearch ys)) := by
  have hsplit : (do
      let attempt ← s.retry P length
      ({ s with attempt } : Scanner m α).whenTold P ys next) =
    (do
      let best ← (do
        let a ← s.retry P length
        a.bestToldAtEnd P m (s.position + ys.length) ys)
      next (s.asSearch ys) best) := by
    unfold whenTold
    rw [bind_assoc]
    rfl
  rw [hsplit]
  exact (alike_retry hm hP h hlength).bind fun best => hnext _ best

/-! ## Dead attempts -/

/-- The matches of a part of the work, and then those of what comes next. -/
def followedBy (r : Run π α μ ε (List (Match α) × Scanner m α))
    (next : Scanner m α → Run π α μ ε (List (Match α))) : Run π α μ ε (List (Match α)) := do
  let (found, s) ← r
  let rest ← next s
  return found ++ rest

theorem followedBy_pure (next : Scanner m α → Run π α μ ε (List (Match α))) :
    followedBy (pure ([], s)) next = next s := by
  rw [followedBy, pure_bind]
  exact bind_pure _

/-- **The loop of replacements keeps to the outlook.** One round takes a match that the
search takes too, and the new attempt is the next attempt of the search. -/
theorem alike_replaceDead (hm : m.automaton.Linked) (length : Option Nat) (s : Scanner m α)
    (h : s.Sound) (hdead : length.isSome = true → s.attempt.alive = false)
    (hreplayed : length = none → Replayed P s) {ys : List α}
    (hlength : length = none ∨ length = some s.position ∧ ys = [])
    {next : Scanner m α → Run π α μ ε (List (Match α))}
    (hnext : ∀ found s', Replaced P length s found s' →
      (next s').Alike Env.SameButLog (s'.outlook P ys)) :
    (followedBy (s.replaceDead P length) next).Alike Env.SameButLog (s.outlook P ys) := by
  fun_induction replaceDead P length s with
  | case1 s halive =>
    rw [followedBy_pure]
    exact hnext [] s (replaced_refl h (Or.inl halive) hdead hreplayed)
  | case2 s hdead' hle =>
    have hempty : s.start = s.position := Nat.le_antisymm h.start_le hle
    rw [followedBy_pure]
    exact hnext [] s (replaced_refl h (Or.inr hempty) hdead hreplayed)
  | case3 s hdead' hle ih =>
    obtain ⟨taken, htaken, hordered⟩ := h.exists_taken
    have hlt : s.start < s.position := Nat.not_le.1 hle
    have hcounted := h.counted_past hlt
    have hemit := h.alike_emit (π := π) (μ := μ) (ε := ε)
    rw [htaken] at hemit
    -- The search takes the same match and goes on from the same place.
    have houtlook : s.outlook P ys = (do
        let taken ← Run.ofChecked (.ok taken)
        let rest ← (s.past.asSearch ys).all P
        return taken.toList ++ rest) := by
      rw [outlook_eq_whenTold,
        whenTold_of_dead ys (Bool.eq_false_iff.2 hdead'), Search.allAfter, asSearch_past h hlt,
        asSearch, Match.taken?_append ys fun _ hn => h.best_le hn, htaken]
    have hround : followedBy (do
          let taken ← s.emit
          let attempt ← s.past.catchUp P length
          let (later, s) ← replaceDead P length { s.past with attempt }
          return (taken.toList ++ later, s)) next = (do
        let taken ← s.emit
        let rest ← (do
          let attempt ← s.past.catchUp P length
          followedBy (replaceDead P length { s.past with attempt }) next)
        return taken.toList ++ rest) := by
      unfold followedBy
      simp only [bind_assoc, pure_bind, List.append_assoc]
    rw [hround, houtlook]
    refine hemit.bind ?_
    intro taken
    refine Run.Alike.bind ?_ fun rest => Run.alike_pure _
    -- The new attempt is sound, so the induction goes on with it.
    rw [Search.all_eq hm]
    refine Run.Alike.trans ?_ (alike_whenTold_retry hm P.respects_sameButLog hcounted hlength
      (Search.alike_allAfter P.respects_sameButLog))
    refine (hcounted.alike_catchUp P length).bind_of_ensures
      (ensures_catchUp hm P.panicsOnly_true length hcounted) ?_
    rintro attempt ⟨hsound, hgiven, hreplay⟩
    apply ih attempt hsound hgiven hreplay hlength
    intro found s' hreplaced
    exact hnext _ s' (hreplaced.after_past hordered)

/-- **Dealing with dead attempts keeps to the outlook.** -/
theorem alike_moveOn (hm : m.automaton.Linked) (length : Option Nat) (s : Scanner m α)
    (h : s.Sound) (hended : s.ended = length.isSome)
    (hdead : length.isSome = true → s.attempt.alive = false)
    (hreplayed : length = none → Replayed P s) {ys : List α}
    (hlength : length = none ∨ length = some s.position ∧ ys = [])
    {next : Scanner m α → Run π α μ ε (List (Match α))}
    (hnext : ∀ s', AtRest P s' → s'.ended = s.ended → s'.position = s.position →
      (next s').Alike Env.SameButLog (s'.outlook P ys)) :
    (followedBy (s.moveOn P length) next).Alike Env.SameButLog (s.outlook P ys) := by
  have htrim : followedBy (s.moveOn P length) next =
      followedBy (s.replaceDead P length) fun s' => Run.ofChecked s'.trim >>= next := by
    unfold followedBy moveOn
    simp only [bind_assoc, pure_bind]
  rw [htrim]
  apply alike_replaceDead hm length s h hdead hreplayed hlength
  intro found s' hreplaced
  rw [hreplaced.sound.trim_eq, Run.ofChecked_ok_bind, outlook_eq_whenTold,
    ← whenTold_trimmed]
  exact hnext _ (hreplaced.atRest hended) hreplaced.ended_eq hreplaced.position_eq

/-! ## The rest of the input -/

/-- Everything that is found from now on, if `ys` is the rest of the input. -/
def finish (P : Predicates π α μ ε) (ys : List α) (s : Scanner m α) :
    Run π α μ ε (List (Match α)) := do
  let (found, s) ← s.pushEach P ys
  let (rest, _) ← s.close P
  return found.flatten ++ rest

theorem finish_nil (P : Predicates π α μ ε) (s : Scanner m α) :
    s.finish P [] = followedBy (s.close P) fun _ => pure [] := by
  unfold finish followedBy pushEach
  simp only [pure_bind, List.flatten_nil, List.nil_append, List.append_nil]

theorem finish_cons (P : Predicates π α μ ε) (y : α) (ys : List α) (s : Scanner m α) :
    s.finish P (y :: ys) = followedBy (s.push P y) (finish P ys) := by
  unfold finish followedBy
  rw [pushEach]
  simp only [bind_assoc, pure_bind, List.flatten_cons, List.append_assoc]

/-- After the end nothing lies ahead, and the attempt is over and claims nothing. -/
theorem AtRest.asSearch_nil (h : AtRest P s) (hended : s.ended = true) :
    (s.asSearch []).ahead = [] ∧ s.attempt.alive = false ∧
      ∀ n, s.attempt.best = some n → n ≤ 0 := by
  obtain ⟨hlast, hover⟩ := h.after_end hended
  have hpending : s.pending = [] := by
    refine List.length_eq_zero_iff.1 ?_
    rw [h.length_pending, hlast, Nat.sub_self]
  refine ⟨?_, hover, ?_⟩
  · rw [asSearch, hpending]
    rfl
  · intro n hn
    have := h.best_le hn
    rw [hpending] at this
    exact this

/-- When the end is told, what is found is what the search still finds. -/
theorem alike_close (hm : m.automaton.Linked) (h : AtRest P s) (hopen : s.ended = false) :
    (followedBy (s.close P) fun _ => pure []).Alike Env.SameButLog (s.outlook P []) := by
  obtain ⟨a, hconclude, hdead, hsound⟩ := h.exists_conclude_eq_ok hm
  rw [close_eq P hopen hconclude, outlook_eq_whenTold, whenTold_nil hconclude hdead]
  apply alike_moveOn hm (some s.position) _ hsound rfl (fun _ => hdead)
    (fun hnone => absurd hnone (Option.some_ne_none s.position)) (Or.inr ⟨rfl, rfl⟩)
  intro s' hrest hended _
  -- Nothing is left, neither for the scanner nor for the search.
  obtain ⟨hahead, hover, hbest⟩ := hrest.asSearch_nil hended
  rw [outlook_eq_whenTold, whenTold_of_dead [] hover,
    Search.allAfter_of_ahead_eq_nil hahead hbest]
  exact Run.alike_pure []

/-- **The rest of the input.** The induction is on what is still to arrive. -/
theorem alike_finish (hm : m.automaton.Linked) (ys : List α) {s : Scanner m α}
    (h : AtRest P s) (hopen : s.ended = false) :
    (s.finish P ys).Alike Env.SameButLog (s.outlook P ys) := by
  induction ys generalizing s with
  | nil =>
    rw [finish_nil]
    exact alike_close hm h hopen
  | cons y ys ih =>
    have hpush : s.finish P (y :: ys) = (do
        let attempt ← s.attempt.feed P m none [y]
        followedBy (moveOn (m := m) P none { s.receive y with attempt }) (finish P ys)) := by
      rw [finish_cons, push_eq P y hopen]
      unfold followedBy
      rw [bind_assoc]
    rw [hpush, outlook_eq_whenTold, whenTold_cons h]
    refine (s.attempt.alike_feed P.respects_sameButLog m none [y]).bind_of_ensures
      (ensures_receive hm P.panicsOnly_true y h hopen) ?_
    rintro a ⟨hsound, hreplayed⟩
    apply alike_moveOn hm none _ hsound hopen (fun hsome => absurd hsome Bool.false_ne_true)
      (fun _ => hreplayed) (Or.inl rfl)
    intro s' hrest hended _
    exact ih hrest (hended.trans hopen)

/-- At the very beginning it makes no difference when the first attempt learns the
length. -/
theorem alike_whenTold_begin (hm : m.automaton.Linked) (P : Predicates π α μ ε)
    (hbegin : begin m = .ok s) (input : List α)
    {next : Search m α → Option Nat → Run π α μ ε β}
    (hnext : ∀ s best, (next s best).Alike Env.SameButLog (next s best)) :
    (s.whenTold P input next).Alike Env.SameButLog
      (m.lengthAhead P 0 input >>= next (Search.ofList input)) := by
  obtain ⟨s', hbegin', hrest, -, hposition, hstart, hbuffer, hattempt⟩ :=
    exists_begin_eq_ok (α := α) hm P
  have hsame : s = s' := by
    rw [hbegin] at hbegin'
    injection hbegin'
  subst hsame
  have hsearch : s.asSearch input = Search.ofList input := by
    unfold asSearch Search.ofList
    rw [hrest.pending_eq, hbuffer, hstart, List.nil_append]
  have htold : s.whenTold P input next = (do
      let best ← (do
        let a ← Run.ofChecked (Attempt.begin m none 0)
        a.bestToldAtEnd P m (0 + input.length) input)
      next (Search.ofList input) best) := by
    rw [whenTold, hattempt, Run.ofChecked_ok_bind, hposition, hsearch]
  rw [htold]
  exact (Attempt.alike_toldAtEnd hm P.respects_sameButLog 0 input).bind fun best => hnext _ best

end Scanner

/-! ## The whole input -/

namespace Matcher

theorem allMatchesOnce_of_begin {m : Matcher π} (P : Predicates π α μ ε) (input : List α)
    {s : Scanner m α} (h : Scanner.begin m = .ok s) :
    m.allMatchesOnce P input = s.finish P input := by
  rw [allMatchesOnce, scanner, h, Run.ofChecked_ok_bind]
  rfl

/-- But for the log, searching an input that is walked once is searching it. -/
theorem alike_allMatchesOnce {m : Matcher π} (hm : m.automaton.Linked)
    (P : Predicates π α μ ε) (input : List α) :
    (m.allMatchesOnce P input).Alike Env.SameButLog (m.allMatches P input) := by
  obtain ⟨s, hbegin, hrest, hopen, -⟩ := Scanner.exists_begin_eq_ok (α := α) hm P
  rw [allMatchesOnce_of_begin P input hbegin, allMatches, Search.all_eq hm]
  exact (Scanner.alike_finish hm input hrest hopen).trans
    (Scanner.alike_whenTold_begin hm P hbegin input
      (Search.alike_allAfter P.respects_sameButLog))

/-- **Batch and stream agree.** Whatever the predicates do, pushing the input element by
element and searching all of it come to the same result, by the same evaluations in the
same order, and leave the same memory. The result is a list of matches, or the panic of
a predicate. -/
theorem allMatchesOnce_agrees (p : Pattern π) (P : Predicates π α μ ε) (input : List α)
    (env : Env π α μ) :
    (((ofPattern p).allMatchesOnce P input).outcome env).1 =
        (((ofPattern p).allMatches P input).outcome env).1 ∧
      (((ofPattern p).allMatchesOnce P input).outcome env).2.calls =
        (((ofPattern p).allMatches P input).outcome env).2.calls ∧
      (((ofPattern p).allMatchesOnce P input).outcome env).2.memory =
        (((ofPattern p).allMatches P input).outcome env).2.memory ∧
      ((∃ found, (((ofPattern p).allMatches P input).outcome env).1 = .ok found) ∨
        ∃ reason, (((ofPattern p).allMatches P input).outcome env).1 =
          .error (.panic reason)) := by
  have hm := Automaton.linked_ofPattern p
  obtain ⟨hresult, hafter⟩ := alike_allMatchesOnce (m := ofPattern p) hm P input env env
    (Env.SameButLog.refl env)
  refine ⟨hresult, hafter.calls, hafter.memory, ?_⟩
  have hall := Search.ensures_all (m := ofPattern p) hm P.panicsOnly_true
    (Search.ofList input) (List.drop_zero (l := input)).symm
  rcases hall.ok_or_panic env with ⟨found, hfound, -⟩ | ⟨reason, hreason, -⟩
  · exact Or.inl ⟨found, hfound⟩
  · exact Or.inr ⟨reason, hreason⟩

end Matcher

end Motif
