/-
More input.

Without an anchor at the end nothing in an attempt depends on how long the input is
(`run_eq_run_none`). So if there is more input, an attempt does what it does without it, and
then it goes on from where it has come to. It may be dead there, and then the additional
input changes nothing. If it is alive, then it has consumed the shorter input to its end, and
whatever it claims from then on ends behind that (`ensures_feed_laterBest`). A lazy attempt
that is alive has claimed nothing yet, so what it has claimed once is final.
-/
import Motif.Proofs.Anchors
import Motif.Proofs.Lengths
import Motif.Proofs.Record
import Motif.Proofs.Tiling

set_option autoImplicit false

namespace Motif

variable {π α μ ε : Type}

namespace Attempt

/-! ## Attempts that do not ask for the length -/

section Length

variable {m : Matcher π}

theorem refresh_eq_refresh_none (h : ∀ q, ¬ m.automaton.Anchored .atEnd q) (length : Option Nat)
    (a : Attempt) : a.refresh m length = a.refresh m none := by
  rw [refresh, refresh, Automaton.closure_eq_closure_none h]

theorem advance_eq_advance_none (h : ∀ q, ¬ m.automaton.Anchored .atEnd q)
    (P : Predicates π α μ ε) (length : Option Nat) (x : α) (a : Attempt) :
    a.advance P m length x = a.advance P m none x := by
  unfold advance
  simp only [refresh_eq_refresh_none h length]

theorem feed_eq_feed_none (h : ∀ q, ¬ m.automaton.Anchored .atEnd q) (P : Predicates π α μ ε)
    (length : Option Nat) (xs : List α) (a : Attempt) :
    a.feed P m length xs = a.feed P m none xs := by
  induction xs generalizing a with
  | nil => rfl
  | cons x xs ih =>
    rw [feed, feed, advance_eq_advance_none h]
    simp only [ih]

/-- **A run of an attempt** is the same for every length of the input. -/
theorem run_eq_run_none (h : ∀ q, ¬ m.automaton.Anchored .atEnd q) (P : Predicates π α μ ε)
    (length : Option Nat) (start : Nat) (ahead : List α) :
    run P m length start ahead = run P m none start ahead := by
  rw [run, run, begin_eq, begin_eq, refresh_eq_refresh_none h]
  simp only [feed_eq_feed_none h P length]

end Length

/-! ## What an attempt may still claim -/

section Best

variable {m : Matcher π} {a : Attempt} {length : Option Nat} {may : ε → Prop}
  {P : Predicates π α μ ε}

/-- What the later attempt claims is what the earlier one claims. Otherwise the earlier one
was alive, and the match ends behind all that it had consumed. -/
def LaterBest (a a' : Attempt) : Prop :=
  a'.best = a.best ∨ a.alive = true ∧ ∃ n, a'.best = some n ∧ a.position < a.start + n

/-- If it is true behind an element, it is true in front of it. What the element adds ends
behind it. -/
theorem LaterBest.of_read {a' a'' : Attempt} (h : LaterBest a' a'') (halive : a.alive = true)
    (hle : a.start ≤ a.position) (hstart : a'.start = a.start)
    (hposition : a'.position = a.position + 1)
    (hbest : a'.best = a.best ∨ a'.best = some (a.position + 1 - a.start)) : LaterBest a a'' := by
  rcases h with hsame | ⟨-, n, hn, hlt⟩
  · rcases hbest with hbest | hbest
    · exact Or.inl (hsame.trans hbest)
    · exact Or.inr ⟨halive, _, hsame.trans hbest, by omega⟩
  · exact Or.inr ⟨halive, n, hn, by omega⟩

/-- **More elements** change what is claimed only into something longer. -/
theorem ensures_feed_laterBest (hm : m.automaton.Linked) (hP : P.PanicsOnly may)
    (length : Option Nat) (xs : List α) (hfits : a.Fits m) :
    (a.feed P m length xs).Ensures may (LaterBest a) := by
  induction xs generalizing a with
  | nil => exact Run.ensures_pure (Or.inl rfl)
  | cons x xs ih =>
    rw [feed]
    split
    · rename_i halive
      have hread : (a.advance P m length x).Ensures may fun a' =>
          (a'.Fits m ∧ a'.start = a.start ∧ a'.position = a.position + 1) ∧
            (a'.best = a.best ∨ a'.best = some (a.position + 1 - a.start)) := by
        refine ensures_advance_of hm (Label.metWithin_all hP) hfits halive
          fun seeds c _ _ _ hfits' => ⟨⟨hfits', rfl, rfl⟩, ?_⟩
        -- The closure has the accepting state, or it has not.
        exact (ite_eq_or_eq _ _ _).symm
      refine hread.bind ?_
      rintro a' ⟨⟨hfits', hstart, hposition⟩, hbest⟩
      exact (ih hfits').mono fun a'' hlater =>
        hlater.of_read halive hfits.start_le hstart hposition hbest
    · exact Run.ensures_pure (Or.inl rfl)

/-- An attempt for short matches has claimed nothing for as long as it is alive. -/
def Hesitates (m : Matcher π) (a : Attempt) : Prop :=
  m.greedy = false → a.alive = true → a.best = none

theorem Hesitates.withClosure (h : m.greedy = false → a.best = none) (c : Closure) :
    (a.withClosure m c).Hesitates m := by
  intro hgreedy halive
  have hbest : (a.withClosure m c).best = a.best :=
    if_neg (accept_not_mem_of_alive hgreedy halive)
  rw [hbest, h hgreedy]

theorem ensures_advance_hesitates (hm : m.automaton.Linked) (hP : P.PanicsOnly may) (x : α)
    (hfits : a.Fits m) (h : a.Hesitates m) (halive : a.alive = true) :
    (a.advance P m length x).Ensures may fun a' => a'.Fits m ∧ a'.Hesitates m :=
  ensures_advance_of hm (Label.metWithin_all hP) hfits halive fun seeds c _ _ _ hfits' =>
    ⟨hfits', Hesitates.withClosure (a := { a with seeds, position := a.position + 1 })
      (fun hgreedy => h hgreedy halive) c⟩

theorem ensures_feed_hesitates (hm : m.automaton.Linked) (hP : P.PanicsOnly may) (xs : List α)
    (hfits : a.Fits m) (h : a.Hesitates m) :
    (a.feed P m length xs).Ensures may (Hesitates m) := by
  have hfeed := ensures_feed_of (I := fun a => a.Fits m ∧ a.Hesitates m) length
    (fun _ x ⟨hfits, h⟩ halive => ensures_advance_hesitates hm hP x hfits h halive) xs ⟨hfits, h⟩
  exact hfeed.mono fun a' h' => h'.2

/-- **A run of a lazy attempt** stops as soon as it claims something. -/
theorem ensures_run_hesitates (hm : m.automaton.Linked) (hP : P.PanicsOnly may)
    (length : Option Nat) (start : Nat) (ahead : List α) :
    (run P m length start ahead).Ensures may (Hesitates m) := by
  obtain ⟨c, -, hbegin, hfits⟩ := exists_refresh_fresh_eq_ok hm length start
  rw [run, hbegin, Run.ofChecked_ok_bind]
  exact ensures_feed_hesitates hm hP ahead hfits
    (Hesitates.withClosure (fun _ => best_fresh m start) c)

end Best

theorem grows_feed (P : Predicates π α μ ε) (m : Matcher π) (length : Option Nat) (xs : List α)
    (a : Attempt) : (a.feed P m length xs).Grows :=
  .of_alike fun begun => alike_feed (P.respects_since begun) m length xs a

end Attempt

/-! ## Longer inputs -/

namespace Matcher

/-- An attempt at an offset, if it does not matter how long the input is. -/
theorem lengthAt_eq_run {m : Matcher π} (h : ∀ q, ¬ m.automaton.Anchored .atEnd q)
    (P : Predicates π α μ ε) {input : List α} {offset : Nat} (hoffset : offset ≤ input.length) :
    m.lengthAt P input offset = (do
      let a ← Attempt.run P m none offset (input.drop offset)
      return a.best) := by
  rw [lengthAt_of_le hoffset, lengthAhead, Attempt.run_eq_run_none h]

/-- An attempt in a longer input is the attempt in the shorter one, continued. -/
theorem lengthAt_append {m : Matcher π} (h : ∀ q, ¬ m.automaton.Anchored .atEnd q)
    (P : Predicates π α μ ε) {xs : List α} (ys : List α) {offset : Nat}
    (hoffset : offset ≤ xs.length) :
    m.lengthAt P (xs ++ ys) offset = (do
      let a ← Attempt.run P m none offset (xs.drop offset)
      let a' ← a.feed P m none ys
      return a'.best) := by
  have hlonger : offset ≤ (xs ++ ys).length := by
    rw [List.length_append]
    exact Nat.le_add_right_of_le hoffset
  rw [lengthAt_eq_run h P hlonger, List.drop_append_of_le_length hoffset, Attempt.run_append,
    bind_assoc]

/-- **More input.** Let the pattern contain no anchor at the end, and let no predicate panic.
With more input behind the input, an attempt at the same offset makes the evaluations that it
makes without, and then perhaps others. If it comes to a length without, then it comes to one
that is at least as long, and to the same one if the pattern is lazy. If it does not, then
with more input it does not either, or it comes to a length that takes in all of the shorter
input and more. -/
theorem exists_lengthAt_append (p : Pattern π) (habsent : .anchor .atEnd ∉ p.subpatterns)
    {P : Predicates π α μ ε} (hP : P.NeverPanics) (xs ys : List α) {offset : Nat}
    (hoffset : offset ≤ xs.length) (env : Env π α μ) :
    ∃ best best' after after',
      ((ofPattern p).lengthAt P xs offset).outcome env = (.ok best, after) ∧
      ((ofPattern p).lengthAt P (xs ++ ys) offset).outcome env = (.ok best', after') ∧
      after.calls.toList <+: after'.calls.toList ∧
      (∀ n, best = some n →
        ∃ n', best' = some n' ∧ n ≤ n' ∧ (p.isGreedy = false → n' = n)) ∧
      (best = none → best' = none ∨ ∃ n', best' = some n' ∧ xs.length - offset < n') := by
  have hm : (ofPattern p).automaton.Linked := Automaton.linked_ofPattern p
  have hnone : ∀ q, ¬ (ofPattern p).automaton.Anchored .atEnd q :=
    fun q hq => habsent hq.mem_subpatterns
  -- The attempt comes to the end of the shorter input, or is over before.
  obtain ⟨a, after, hrun, ⟨hfits, hstart, -, hposition⟩, hhesitates⟩ :=
    ((Attempt.ensures_run hm hP none offset (xs.drop offset)).and
      (Attempt.ensures_run_hesitates hm hP none offset (xs.drop offset))).exists_outcome env
  -- From there it goes on with what is added.
  obtain ⟨a', after', hfeed, hlater⟩ :=
    (Attempt.ensures_feed_laterBest hm hP none ys hfits).exists_outcome after
  refine ⟨a.best, a'.best, after, after', ?_, ?_, ?_, ?_, ?_⟩
  · rw [lengthAt_eq_run hnone P hoffset, Run.outcome_bind_of_ok hrun]
    rfl
  · rw [lengthAt_append hnone P ys hoffset, Run.outcome_bind_of_ok hrun,
      Run.outcome_bind_of_ok hfeed]
    rfl
  · have hgrows := Attempt.grows_feed P (ofPattern p) none ys a after
    rwa [hfeed] at hgrows
  · intro n hn
    rcases hlater with hsame | ⟨halive, n', hn', hlt⟩
    · exact ⟨n, hsame.trans hn, Nat.le_refl n, fun _ => rfl⟩
    · have hle := hfits.best_le n hn
      refine ⟨n', hn', by omega, fun hlazy => ?_⟩
      -- A lazy attempt that is alive has claimed nothing.
      rw [hhesitates hlazy halive] at hn
      cases hn
  · intro hn
    refine hlater.imp (fun hsame => hsame.trans hn) ?_
    rintro ⟨halive, n', hn', hlt⟩
    refine ⟨n', hn', ?_⟩
    have hend := hposition halive
    rw [List.length_drop] at hend
    omega

/-- Two ones become three if there is a third one behind them. -/
theorem exists_lengthAt_append_ones :
    .anchor .atEnd ∉ (Pattern.predicate ()).plus.subpatterns ∧
      (Predicates.ofTest (fun _ b => b) : Predicates Unit Bool Unit Unit).NeverPanics ∧
      0 ≤ [true, true].length ∧
      ∃ n', (((ofPattern (Pattern.predicate ()).plus).lengthAt
          (.ofTest (fun _ b => b) : Predicates Unit Bool Unit Unit)
          ([true, true] ++ [true, false]) 0).outcome ⟨(), #[], #[]⟩).1 = .ok (some n') ∧
        2 ≤ n' := by
  have habsent : .anchor .atEnd ∉ (Pattern.predicate ()).plus.subpatterns := by
    simp [Pattern.plus, Pattern.repeated, Pattern.subpatterns]
  have hnever := (Predicates.answers_ofTest (μ := Unit) (ε := Unit)
    (fun (_ : Unit) (b : Bool) => b)).neverPanics
  have hshort : (((ofPattern (Pattern.predicate ()).plus).lengthAt
      (.ofTest (fun _ b => b) : Predicates Unit Bool Unit Unit) [true, true] 0).outcome
        ⟨(), #[], #[]⟩).1 = .ok (some 2) := by
    decide +kernel
  obtain ⟨best, best', after, after', hbest, hbest', -, hsome, -⟩ :=
    exists_lengthAt_append (Pattern.predicate ()).plus habsent hnever [true, true] [true, false]
      (Nat.zero_le [true, true].length) ⟨(), #[], #[]⟩
  rw [hbest] at hshort
  obtain ⟨n', hn', hle, -⟩ := hsome 2 (Except.ok.inj hshort)
  refine ⟨habsent, hnever, Nat.zero_le _, n', ?_, hle⟩
  rw [hbest', hn']

end Matcher

end Motif
