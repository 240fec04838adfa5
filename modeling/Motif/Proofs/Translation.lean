/-
Moving the input.

An attempt counts its positions from the beginning of the input, but it only ever compares
them: with one another, with the length, and with the first position. So an attempt that
begins further on, in an input that is longer by as much, goes through the same states,
evaluates the same predicates and comes to the same length. Its positions are moved, and that
is all (`feed_moved`). Only the first position is unlike the others, and only to a pattern
with an anchor at the start. Such a pattern may be moved as well, as long as neither place is
the first one.

What is true of one attempt is true of a search, attempt by attempt, and its matches are moved
along with it (`all_moved`). Since a search goes on behind a match as if nothing had been
before, what is found behind the first match is what is found in the rest of the input alone.
-/
import Motif.Proofs.Anchors
import Motif.Proofs.Search
import Motif.Proofs.Tiling

set_option autoImplicit false

namespace Motif

variable {π α μ ε : Type}

/-! ## Attempts -/

namespace Attempt

/-- The attempt as if everything had happened further on. -/
def moved (distance : Nat) (a : Attempt) : Attempt :=
  { a with start := a.start + distance, position := a.position + distance }

@[simp] theorem alive_moved (distance : Nat) (a : Attempt) :
    (a.moved distance).alive = a.alive := rfl

@[simp] theorem best_moved (distance : Nat) (a : Attempt) :
    (a.moved distance).best = a.best := rfl

section Moved

variable {m : Matcher π} {a : Attempt} {P : Predicates π α μ ε}

theorem fresh_add (m : Matcher π) (start distance : Nat) :
    fresh m (start + distance) = (fresh m start).moved distance := rfl

/-- How much was consumed does not depend on where it was. -/
theorem withClosure_moved (c : Closure) (distance : Nat) :
    (a.moved distance).withClosure m c = (a.withClosure m c).moved distance := by
  have hbest : (a.moved distance).bestGiven m c = a.bestGiven m c := by
    unfold bestGiven moved
    rw [Nat.add_sub_add_right]
  rw [withClosure, hbest]
  rfl

theorem refresh_eq_map (h : a.start ≤ a.position) (length : Option Nat) :
    a.refresh m length = (m.automaton.closure a.seeds.toList a.position length).map
      fun c => a.withClosure m c := by
  cases hc : m.automaton.closure a.seeds.toList a.position length with
  | ok c => exact refresh_of_closure h hc
  | error cause =>
    rw [refresh, hc]
    rfl

/-- **The closure of a moved attempt.** -/
theorem refresh_moved (h : m.automaton.Movable a.position) (hstart : a.start ≤ a.position)
    (length distance : Nat) :
    (a.moved distance).refresh m (some (length + distance)) =
      (a.refresh m (some length)).map (moved distance) := by
  have hclosure := Automaton.closure_add h a.seeds.toList length distance
  rw [refresh_eq_map hstart, refresh_eq_map (a := a.moved distance)
    (Nat.add_le_add_right hstart distance)]
  change (m.automaton.closure a.seeds.toList (a.position + distance)
    (some (length + distance))).map _ = _
  rw [hclosure]
  cases m.automaton.closure a.seeds.toList a.position (some length) with
  | ok c => exact congrArg Except.ok (withClosure_moved c distance)
  | error cause => rfl

/-- **One element.** -/
theorem advance_moved (h : m.automaton.Movable a.position) (hstart : a.start ≤ a.position)
    (halive : a.alive = true) (length distance : Nat) (x : α) :
    (a.moved distance).advance P m (some (length + distance)) x = (do
      let a' ← a.advance P m (some length) x
      return a'.moved distance) := by
  rw [advance_of_alive halive, advance_of_alive (a := a.moved distance) halive, bind_assoc]
  refine congrArg _ (funext fun seeds => ?_)
  rw [← Run.ofChecked_map]
  have hread : ({ a.moved distance with seeds, position := (a.moved distance).position + 1 } :
      Attempt) = ({ a with seeds, position := a.position + 1 } : Attempt).moved distance := by
    simp only [moved, Nat.add_right_comm]
  rw [hread, refresh_moved (a := { a with seeds, position := a.position + 1 }) h.succ
    (Nat.le_succ_of_le hstart)]

/-- **Any elements.** The induction is on the elements; the attempt stays where it can be
moved. -/
theorem feed_moved (hm : m.automaton.Linked) (hfits : a.Fits m)
    (h : m.automaton.Movable a.position) (length distance : Nat) (xs : List α) :
    (a.moved distance).feed P m (some (length + distance)) xs = (do
      let a' ← a.feed P m (some length) xs
      return a'.moved distance) := by
  induction xs generalizing a with
  | nil =>
    rw [feed, feed, pure_bind]
  | cons x xs ih =>
    rw [feed, feed, alive_moved]
    split
    · rename_i halive
      rw [advance_moved h hfits.start_le halive, bind_assoc, bind_assoc]
      have hnext := ensures_advance hm P.panicsOnly_true (some length) x hfits halive
      refine hnext.returns.bind_congr ?_
      rintro a' ⟨hcont, hposition⟩
      rw [pure_bind]
      exact ih hcont.fits (hposition ▸ h.succ)
    · rw [pure_bind]

/-- **A run of an attempt.** -/
theorem run_moved (hm : m.automaton.Linked) {start : Nat} (h : m.automaton.Movable start)
    (length distance : Nat) (ahead : List α) :
    run P m (some (length + distance)) (start + distance) ahead = (do
      let a ← run P m (some length) start ahead
      return a.moved distance) := by
  obtain ⟨c, -, hbegin, hfits⟩ := exists_refresh_fresh_eq_ok hm (some length) start
  have hbegin' : begin m (some (length + distance)) (start + distance) =
      .ok (((fresh m start).withClosure m c).moved distance) := by
    rw [begin_eq, fresh_add, refresh_moved h (Nat.le_refl start), ← begin_eq, hbegin]
    rfl
  rw [run, run, hbegin, hbegin', Run.ofChecked_ok_bind, Run.ofChecked_ok_bind]
  exact feed_moved hm hfits h length distance ahead

end Moved

end Attempt

/-! ## Searches -/

namespace Matcher

variable {m : Matcher π} {P : Predicates π α μ ε}

/-- What an attempt comes to does not depend on where it is made. -/
theorem lengthAhead_add (hm : m.automaton.Linked) {position : Nat}
    (h : m.automaton.Movable position) (distance : Nat) (ahead : List α) :
    m.lengthAhead P (position + distance) ahead = m.lengthAhead P position ahead := by
  rw [lengthAhead, lengthAhead, Nat.add_right_comm, Attempt.run_moved hm h, bind_assoc]
  simp only [pure_bind, Attempt.best_moved]

/-- An attempt does not see what lies before the position in front of it. -/
theorem lengthAt_drop (hm : m.automaton.Linked) {position : Nat}
    (h : m.automaton.Movable position) (input : List α) {offset : Nat}
    (hposition : position ≤ offset) (hoffset : offset ≤ input.length) :
    m.lengthAt P input offset = m.lengthAt P (input.drop (offset - position)) position := by
  have hle : position ≤ (input.drop (offset - position)).length := by
    rw [List.length_drop]
    omega
  have hadd := lengthAhead_add (P := P) hm h (offset - position) (input.drop offset)
  rw [Nat.add_sub_cancel' hposition] at hadd
  rw [lengthAt_of_le hoffset, lengthAt_of_le hle, hadd, List.drop_drop,
    Nat.sub_add_cancel hposition]

end Matcher

namespace Match

/-- The match as if it had been found further on. -/
def moved (distance : Nat) (f : Match α) : Match α :=
  { f with first := f.first + distance, last := f.last + distance }

theorem taken?_add (start distance : Nat) {ahead : List α} {best : Option Nat}
    (h : ∀ n, best = some n → n ≤ ahead.length) :
    taken? (start + distance) ahead best =
      (taken? start ahead best).map (Option.map (moved distance)) := by
  unfold taken?
  split
  · rename_i n
    rw [if_pos (h (n + 1) rfl), if_pos (h (n + 1) rfl), Nat.add_right_comm]
    rfl
  · rfl
  · rfl

end Match

namespace Search

variable {m : Matcher π} {P : Predicates π α μ ε}

/-- **A whole search.** If there is no anchor at the start, it finds the same further on, by
the same evaluations. -/
theorem all_moved (hm : m.automaton.Linked) (h : ∀ q, ¬ m.automaton.Anchored .atStart q)
    (position distance : Nat) (ahead : List α) :
    (⟨position + distance, ahead⟩ : Search m α).all P = (do
      let found ← (⟨position, ahead⟩ : Search m α).all P
      return found.map (Match.moved distance)) := by
  by_cases hahead : ahead = []
  · rw [all_of_ahead_eq_nil P hahead, all_of_ahead_eq_nil P hahead, pure_bind]
    rfl
  · rw [all_of_ahead_ne_nil hahead, all_of_ahead_ne_nil hahead, bind_assoc,
      Matcher.lengthAhead_add hm (Or.inr h)]
    have hlength := Matcher.ensures_lengthAhead hm P.panicsOnly_true position ahead
    refine hlength.returns.bind_congr fun best hbest => ?_
    obtain ⟨taken, htaken, -⟩ := Match.exists_taken?_eq_ok position hbest
    -- The match is moved, and so is what the search finds behind it.
    have hpast := all_moved hm h (position + stride best) distance (ahead.drop (stride best))
    rw [Nat.add_right_comm] at hpast
    change allAfter P (⟨position + distance, ahead⟩ : Search m α) best =
      allAfter P (⟨position, ahead⟩ : Search m α) best >>= _
    rw [allAfter, allAfter, Match.taken?_add position distance hbest, htaken]
    change ((⟨position + distance + stride best, ahead.drop (stride best)⟩ : Search m α).all P >>=
      fun rest => pure ((taken.map (Match.moved distance)).toList ++ rest)) = _
    rw [hpast, Run.ofChecked_ok_bind, bind_assoc, bind_assoc]
    refine congrArg _ (funext fun rest => ?_)
    rw [pure_bind, pure_bind, List.map_append]
    cases taken <;> rfl
termination_by ahead.length
decreasing_by exact length_past_lt (s := (⟨position, ahead⟩ : Search m α)) hahead best

/-- **Behind the first match** the search goes on as one that begins there. -/
theorem exists_all_of_cons (s : Search m α) {input : List α} (hs : s.ahead = input.drop s.position)
    {env after : Env π α μ} {first : Match α} {rest : List (Match α)}
    (h : (s.all P).outcome env = (.ok (first :: rest), after)) :
    ∃ between, ((⟨first.last + 1, input.drop (first.last + 1)⟩ : Search m α).all P).outcome
      between = (.ok rest, after) := by
  by_cases hahead : s.ahead = []
  · rw [all_of_ahead_eq_nil P hahead] at h
    cases h
  · rw [all_of_ahead_ne_nil hahead] at h
    obtain ⟨best, env₁, -, h⟩ := Run.exists_of_bind_eq_ok h
    obtain ⟨taken, env₂, htaken, h⟩ := Run.exists_of_bind_eq_ok h
    obtain ⟨later, env₃, hlater, h⟩ := Run.exists_of_bind_eq_ok h
    replace htaken : Match.taken? s.position s.ahead best = .ok taken :=
      Run.returns_ofChecked (fun _ htaken => htaken) env₁ taken (congrArg Prod.fst htaken)
    have hfound : taken.toList ++ later = first :: rest := Except.ok.inj (congrArg Prod.fst h)
    have hafter : env₃ = after := congrArg Prod.snd h
    have hpast : (s.past best).ahead = input.drop (s.past best).position := by
      rw [past, hs, List.drop_drop]
    subst hafter
    cases taken with
    | none =>
      -- The position is passed over, and the first match lies further on.
      have hsame : later = first :: rest := hfound
      subst hsame
      exact exists_all_of_cons (s.past best) hpast hlater
    | some f =>
      obtain ⟨rfl, rfl⟩ := List.cons.inj hfound
      obtain ⟨-, -, -, hlast, -⟩ := Match.of_taken?_eq_some htaken
      refine ⟨env₂, ?_⟩
      rw [hlast]
      change ((⟨(s.past best).position, input.drop (s.past best).position⟩ :
        Search m α).all P).outcome env₂ = _
      rw [← hpast]
      exact hlater
termination_by s.ahead.length
decreasing_by exact length_past_lt hahead best

end Search

namespace Matcher

/-- What is found behind the first match is what is found in the rest of the input, if what
comes of an evaluation depends on the element alone. -/
theorem exists_allMatches_drop {m : Matcher π} (hm : m.automaton.Linked)
    (h : ∀ q, ¬ m.automaton.Anchored .atStart q) {P : Predicates π α μ ε} (hP : P.Steady)
    {input : List α} {env : Env π α μ} {first : Match α} {rest : List (Match α)}
    (hfound : ((m.allMatches P input).outcome env).1 = .ok (first :: rest)) (env' : Env π α μ) :
    ∃ found, ((m.allMatches P (input.drop (first.last + 1))).outcome env').1 = .ok found ∧
      rest = found.map (Match.moved (first.last + 1)) := by
  have hinput : (Search.ofList input : Search m α).ahead =
      input.drop (Search.ofList input : Search m α).position := List.drop_zero.symm
  obtain ⟨between, hrest⟩ := Search.exists_all_of_cons _ hinput (Prod.ext hfound rfl)
  -- The search behind the match is the search in the rest, moved.
  have hmoved := Search.all_moved (P := P) hm h 0 (first.last + 1) (input.drop (first.last + 1))
  rw [Nat.zero_add] at hmoved
  -- It comes to the same wherever it is started.
  have hsame := (Search.alike_all hP.respects (⟨first.last + 1,
    input.drop (first.last + 1)⟩ : Search m α) between env' trivial).1
  rw [hrest, hmoved] at hsame
  dsimp only at hsame
  obtain ⟨found, after, hafter, hpure⟩ := Run.exists_of_bind_eq_ok (Prod.ext hsame.symm rfl)
  exact ⟨found, congrArg Prod.fst hafter, (Except.ok.inj (congrArg Prod.fst hpure)).symm⟩

/-- **Matching does not depend on where the input begins.** Whatever the predicates do, an
attempt comes to a length or to the panic of a predicate. If the pattern contains no anchor at
the start, then an attempt at an offset does what an attempt at the beginning does of an input
that begins there: it makes the same evaluations, leaves the same memory and comes to the same.
If it does contain one, the same is true of an attempt one position behind the beginning of an
input that begins one position earlier.

Let what comes of an evaluation, an answer or a panic, depend on the element alone, and let
there be no anchor at the start. Then all matches behind the first one are the matches in the
rest of the input, moved by as many positions as the rest lies behind. -/
theorem lengthAt_moved (p : Pattern π) (P : Predicates π α μ ε) (input : List α) :
    (∀ offset ≤ input.length, ∀ env : Env π α μ,
      (∃ best, (((ofPattern p).lengthAt P input offset).outcome env).1 = .ok best) ∨
        ∃ reason, (((ofPattern p).lengthAt P input offset).outcome env).1 =
          .error (.panic reason)) ∧
    (.anchor .atStart ∉ p.subpatterns → ∀ offset ≤ input.length, ∀ env : Env π α μ,
      ((ofPattern p).lengthAt P input offset).outcome env =
        ((ofPattern p).lengthAt P (input.drop offset) 0).outcome env) ∧
    (∀ offset ≤ input.length, 1 ≤ offset → ∀ env : Env π α μ,
      ((ofPattern p).lengthAt P input offset).outcome env =
        ((ofPattern p).lengthAt P (input.drop (offset - 1)) 1).outcome env) ∧
    (.anchor .atStart ∉ p.subpatterns → P.Steady →
      ∀ (env env' : Env π α μ) (first : Match α) (rest : List (Match α)),
        (((ofPattern p).allMatches P input).outcome env).1 = .ok (first :: rest) →
        ∃ found, (((ofPattern p).allMatches P (input.drop (first.last + 1))).outcome env').1 =
            .ok found ∧
          rest = found.map (Match.moved (first.last + 1))) := by
  have hm : (ofPattern p).automaton.Linked := Automaton.linked_ofPattern p
  have hnone : .anchor .atStart ∉ p.subpatterns →
      ∀ q, ¬ (ofPattern p).automaton.Anchored .atStart q :=
    fun habsent q hq => habsent hq.mem_subpatterns
  refine ⟨fun offset hoffset env => ?_, fun habsent offset hoffset env => ?_,
    fun offset hoffset hpos env => ?_, ?_⟩
  · rw [lengthAt_of_le hoffset]
    have hresult := (ensures_lengthAhead hm P.panicsOnly_true offset
      (input.drop offset)).ok_or_panic env
    exact hresult.imp (fun ⟨best, hbest, _⟩ => ⟨best, hbest⟩)
      fun ⟨reason, hreason, _⟩ => ⟨reason, hreason⟩
  · rw [lengthAt_drop hm (Or.inr (hnone habsent)) input (Nat.zero_le offset) hoffset, Nat.sub_zero]
  · rw [lengthAt_drop hm (Or.inl Nat.zero_lt_one) input hpos hoffset]
  · intro habsent hsteady env env' first rest hfound
    exact exists_allMatches_drop hm (hnone habsent) hsteady hfound env'

/-- Behind the two ones at the beginning of four bits, the third one is found where it is found
in the last two bits, moved by two positions. -/
theorem lengthAt_moved_ones :
    .anchor .atStart ∉ (Pattern.predicate ()).plus.subpatterns ∧
      (Predicates.ofTest (fun _ b => b) : Predicates Unit Bool Unit Unit).Steady ∧
      ∃ found, (((ofPattern (Pattern.predicate ()).plus).allMatches
          (.ofTest (fun _ b => b) : Predicates Unit Bool Unit Unit) [false, true]).outcome
            ⟨(), #[], #[]⟩).1 = .ok found ∧
        [⟨3, 3, [true]⟩] = found.map (Match.moved 2) := by
  have habsent : .anchor .atStart ∉ (Pattern.predicate ()).plus.subpatterns := by
    simp [Pattern.plus, Pattern.repeated, Pattern.subpatterns]
  have hsteady := (Predicates.answers_ofTest (μ := Unit) (ε := Unit)
    (fun (_ : Unit) (b : Bool) => b)).steady
  have hfound : (((ofPattern (Pattern.predicate ()).plus).allMatches
      (.ofTest (fun _ b => b) : Predicates Unit Bool Unit Unit)
      [true, true, false, true]).outcome ⟨(), #[], #[]⟩).1 =
        .ok [⟨0, 1, [true, true]⟩, ⟨3, 3, [true]⟩] := by
    decide +kernel
  obtain ⟨-, -, -, hbehind⟩ := lengthAt_moved (Pattern.predicate ()).plus
    (.ofTest (fun _ b => b) : Predicates Unit Bool Unit Unit) [true, true, false, true]
  exact ⟨habsent, hsteady,
    hbehind habsent hsteady ⟨(), #[], #[]⟩ ⟨(), #[], #[]⟩ _ _ hfound⟩

end Matcher

end Motif
