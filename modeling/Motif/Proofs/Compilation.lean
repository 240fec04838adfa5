/-
The layout of a pattern means what the pattern means.

If an automaton holds the block of a pattern, a route from the block's entry to its exit
consumes exactly what the pattern spans. One direction builds a route out of the routes
of the children (`reaches_of_spans`). The other direction cuts a route where it comes to
the exit for the first time: what lies before the cut is within the block, and so it is
again made of routes through the blocks of the children (`crosses_of_route`).

Both are inductions on the pattern, and both need a second induction for a repetition.
Routes are built along the number of copies that are still to be made. They are taken
apart along the number of edges that are left: the edge back of a loop leads to a
junction where the route was before, but with fewer edges to go, also if the copy in
between consumed nothing.
-/
import Motif.Proofs.Meaning
import Motif.Proofs.Routes
import Motif.Proofs.Blocks

set_option autoImplicit false

namespace Motif

variable {π α : Type}

namespace Automaton

variable {A : Automaton π} {holds : π → α → Bool} {xs : List α} {base i j : Nat}
  {onward : List Nat}

/-! ## From the meaning to a route -/

/-- Copies are made one after the other until there are enough. -/
theorem reaches_copies {plan : CopyPlan} {R : Nat → Nat → Prop}
    (hjunction : ∀ k ≤ plan.copies, A.state? (plan.junction k) = some (.junction (plan.onward k)))
    (hcopy : ∀ k < plan.copies, ∀ i j, R i j →
      A.Reaches holds xs (plan.copyStart k) i (plan.junction (k + 1)) j)
    {k a : Nat} (hmin : plan.min ≤ a + k) (hsome : plan.max ≠ none → a + k ≤ plan.copies)
    (hnone : plan.max = none → a ≤ plan.min) (h : Iterated R k i j) :
    A.Reaches holds xs (plan.junction a) i plan.accept j := by
  have hmincopies : plan.min ≤ plan.copies := Pattern.min_le_copies plan.min plan.max
  induction k generalizing a i with
  | zero =>
    -- There are enough copies.
    have hsame : i = j := h
    subst hsame
    have ha : a ≤ plan.copies := by
      by_cases hmax : plan.max = none
      · exact Nat.le_trans (hnone hmax) hmincopies
      · exact hsome hmax
    have hlast : plan.max ≠ none ∨ a = plan.min := by
      by_cases hmax : plan.max = none
      · exact Or.inr (Nat.le_antisymm (hnone hmax) hmin)
      · exact Or.inl hmax
    exact (move_junction (hjunction a ha) (CopyPlan.accept_mem_onward hmin hlast) i).reaches
  | succ k ih =>
    obtain ⟨t, hR, hrest⟩ := h
    have ha : a < plan.copies := by
      by_cases hmax : plan.max = none
      · have := hnone hmax
        have := CopyPlan.copies_of_max_eq_none hmax
        omega
      · have := hsome hmax
        omega
    have henter : A.Move holds xs (plan.junction a) i (plan.copyStart a) i :=
      move_junction (hjunction a (Nat.le_of_lt ha)) (CopyPlan.copyStart_mem_onward ha) i
    have hthrough := henter.reaches.trans (hcopy a ha i t hR)
    refine hthrough.trans ?_
    by_cases hloop : plan.max = none ∧ a = plan.min
    · -- The only copy of a loop leads back to its own junction.
      obtain ⟨hmax, rfl⟩ := hloop
      have hback : A.Move holds xs (plan.junction (plan.min + 1)) t (plan.junction plan.min) t :=
        move_junction (hjunction (plan.min + 1) ha) (CopyPlan.junction_mem_onward hmax) t
      exact hback.reaches.trans
        (ih (by omega) (fun hne => absurd hmax hne) (fun _ => Nat.le_refl _) hrest)
    · refine ih (by omega) (fun hne => ?_) (fun hmax => ?_) hrest
      · have := hsome hne
        omega
      · have := hnone hmax
        have hne : a ≠ plan.min := fun heq => hloop ⟨hmax, heq⟩
        omega

mutual
/-- **What a pattern spans, its block lets through.** -/
theorem reaches_of_spans : (p : Pattern π) → (base : Nat) → (onward : List Nat) → (i j : Nat) →
    A.Holds base (p.layout base onward) → p.Spans holds xs i j →
    A.Reaches holds xs base i (base + p.exitOffset) j
  | .predicate handle, base, onward, i, j, hA, hspans => by
    obtain ⟨rfl, x, hx, hholds⟩ := hspans
    exact (Move.reading hA.first rfl hx ⟨_, List.mem_singleton.2 rfl, rfl, hholds⟩).reaches
  | .any, base, onward, i, j, hA, hspans => by
    obtain ⟨rfl, x, hx⟩ := hspans
    exact (Move.reading hA.first rfl hx ⟨_, List.mem_singleton.2 rfl, rfl, trivial⟩).reaches
  | .sequence children, base, onward, i, j, hA, hspans =>
    reaches_of_spansAll children base onward i j hA hspans
  | .alternation left right, base, onward, i, j, hA, hspans => by
    obtain ⟨hentry, hleft, hright⟩ := holds_alternation hA
    have hexit : base + (Pattern.alternation left right).exitOffset =
        base + 1 + left.stateCount + right.stateCount := by
      simp only [Pattern.exitOffset]
      omega
    rw [hexit]
    rcases hspans with hspans | hspans
    · have henter : A.Reaches holds xs base i (base + 1) i :=
        (move_junction hentry (by simp) i).reaches
      have hthrough := reaches_of_spans left _ _ i j hleft hspans
      exact henter.trans (hthrough.trans (reaches_target hleft.exit j))
    · have henter : A.Reaches holds xs base i (base + 1 + left.stateCount) i :=
        (move_junction hentry (by simp) i).reaches
      have hthrough := reaches_of_spans right _ _ i j hright hspans
      exact henter.trans (hthrough.trans (reaches_target hright.exit j))
  | .repetition child min max greedy, base, onward, i, j, hA, hspans => by
    obtain ⟨k, hmin, hmax, hiterated⟩ := hspans
    obtain ⟨-, hcopy, -⟩ := holds_repetition hA
    -- The copies are gone through one after the other. Whether there are as many of them as
    -- the child is repeated is what the bounds say.
    have hreaches : A.Reaches holds xs ((Pattern.copyPlan child base min max greedy).junction 0) i
        (Pattern.copyPlan child base min max greedy).accept j := by
      refine reaches_copies (fun k hk => state?_junction hA hk) ?_ ?_ ?_ (fun _ => Nat.zero_le _)
        hiterated
      · intro k hk i j hR
        exact reaches_of_spans child _ _ i j (hcopy k hk) hR
      · rw [Nat.zero_add]
        exact hmin
      · intro hne
        obtain ⟨most, hmost⟩ := Option.ne_none_iff_exists'.1 hne
        rw [CopyPlan.copies_of_max_eq_some hmost, Nat.zero_add]
        exact hmax most hmost
    have haccept : base + (Pattern.repetition child min max greedy).exitOffset =
        (Pattern.copyPlan child base min max greedy).accept := by
      simp only [Pattern.exitOffset, CopyPlan.accept, Pattern.copyPlan]
      omega
    rw [haccept]
    exact hreaches
  | .anchor .atStart, base, onward, i, j, hA, hspans => by
    obtain ⟨rfl, rfl⟩ := hspans
    exact (Move.silent hA.first rfl (List.mem_singleton.2 rfl)).reaches
  | .anchor .atEnd, base, onward, i, j, hA, hspans => by
    obtain ⟨rfl, rfl⟩ := hspans
    exact (Move.silent hA.first (by simp) (List.mem_singleton.2 rfl)).reaches

theorem reaches_of_spansAll : (ps : List (Pattern π)) → (base : Nat) → (onward : List Nat) →
    (i j : Nat) → A.Holds base (Pattern.layoutSequence ps base onward) →
    Pattern.SpansAll holds xs ps i j → A.Reaches holds xs base i (base + Pattern.sequenceExit ps) j
  | [], base, onward, i, j, hA, hspans => by
    have hsame : i = j := hspans
    subst hsame
    exact reaches_target hA.first i
  | [child], base, onward, i, j, hA, hspans => by
    obtain ⟨t, hspans, hsame⟩ := hspans
    have hsame : t = j := hsame
    subst hsame
    exact reaches_of_spans child base onward i t hA hspans
  | child :: next :: rest, base, onward, i, j, hA, hspans => by
    obtain ⟨t, hchild, hrest⟩ := hspans
    obtain ⟨hfirst, hothers⟩ := holds_sequence hA
    have hthrough := reaches_of_spans child _ _ i t hfirst hchild
    have hfollow := reaches_of_spansAll (next :: rest) _ _ t j hothers hrest
    have hexit : base + Pattern.sequenceExit (child :: next :: rest) =
        base + child.stateCount + Pattern.sequenceExit (next :: rest) := by
      simp only [Pattern.sequenceExit]
      omega
    rw [hexit]
    exact hthrough.trans ((reaches_target hfirst.exit t).trans hfollow)
end

/-! ## Leaving a state -/

theorem Move.of_junction {q t k : Nat} (h : A.Move holds xs q i t k)
    (hq : A.state? q = some (.junction onward)) : t ∈ onward ∧ k = i := by
  cases h with
  | silent hq' _ ht =>
    rw [hq] at hq'
    cases hq'
    exact ⟨ht, rfl⟩
  | reading hq' _ _ ht =>
    rw [hq] at hq'
    cases hq'
    obtain ⟨edge, hedge, -⟩ := ht
    cases hedge

theorem Move.of_reader {q t k target : Nat} {label : Label π} (h : A.Move holds xs q i t k)
    (hq : A.state? q = some (.reader label target)) :
    t = target ∧ k = i + 1 ∧ ∃ x, xs[i]? = some x ∧ label.Meets holds x := by
  cases h with
  | silent hq' _ ht =>
    rw [hq] at hq'
    cases hq'
    cases ht
  | reading hq' _ hx ht =>
    rw [hq] at hq'
    cases hq'
    obtain ⟨edge, hedge, htarget, hmeets⟩ := ht
    rw [List.mem_singleton.1 hedge] at htarget hmeets
    exact ⟨htarget.symm, rfl, _, hx, hmeets⟩

theorem Move.of_gate {q t k target : Nat} {condition : Anchor} (h : A.Move holds xs q i t k)
    (hq : A.state? q = some (.gate condition target)) :
    t = target ∧ k = i ∧ condition.holds i (some xs.length) = true := by
  cases h with
  | silent hq' hopen ht =>
    rw [hq] at hq'
    cases hq'
    exact ⟨List.mem_singleton.1 ht, rfl, hopen⟩
  | reading hq' _ _ ht =>
    rw [hq] at hq'
    cases hq'
    obtain ⟨edge, hedge, -⟩ := ht
    cases hedge

/-- A route to another state begins with an edge. -/
theorem Route.exists_move {n q r : Nat} (h : A.Route holds xs n q i r j) (hne : r ≠ q) :
    ∃ t k n', n = n' + 1 ∧ A.Move holds xs q i t k ∧ A.Route holds xs n' t k r j := by
  cases h with
  | done => exact absurd rfl hne
  | step hmove hrest => exact ⟨_, _, _, rfl, hmove, hrest⟩

/-- A route from a junction to another state begins with one of its edges. -/
theorem Route.exists_onward {n q r : Nat} (h : A.Route holds xs n q i r j) (hne : r ≠ q)
    (hq : A.state? q = some (.junction onward)) :
    ∃ t n', n = n' + 1 ∧ t ∈ onward ∧ A.Route holds xs n' t i r j := by
  obtain ⟨t, k, n', hn, hmove, hrest⟩ := h.exists_move hne
  obtain ⟨ht, rfl⟩ := hmove.of_junction hq
  exact ⟨t, n', hn, ht, hrest⟩

/-! ## From a route to the meaning -/

/-- The state is not in the block of so many states, or it is the exit of the block. -/
def Beyond (base size exit r : Nat) : Prop := r < base ∨ base + size ≤ r ∨ r = exit

/-- The way to `r` comes through the exit, and what is consumed up to there is in the
relation. No more than `n` edges are left behind the exit. -/
def Crosses (A : Automaton π) (holds : π → α → Bool) (xs : List α) (exit : Nat)
    (R : Nat → Nat → Prop) (n i r j : Nat) : Prop :=
  ∃ t n', n' ≤ n ∧ R i t ∧ A.Route holds xs n' exit t r j

theorem Crosses.mono {exit n n' r : Nat} {R R' : Nat → Nat → Prop}
    (h : A.Crosses holds xs exit R n i r j) (hn : n ≤ n') (hR : ∀ t, R i t → R' i t) :
    A.Crosses holds xs exit R' n' i r j := by
  obtain ⟨t, m, hm, hit, hroute⟩ := h
  exact ⟨t, m, Nat.le_trans hm hn, hR t hit, hroute⟩

/-- What leads through a child and on to the exit leads through the parent. -/
theorem Crosses.through {exit target n r : Nat} {R : Nat → Nat → Prop}
    (h : A.Crosses holds xs exit R n i r j) (hne : r ≠ exit)
    (hexit : A.state? exit = some (.junction [target])) : A.Crosses holds xs target R n i r j := by
  obtain ⟨t, n', hn', hR, hroute⟩ := h
  obtain ⟨target', n'', rfl, htarget, hrest⟩ := hroute.exists_onward hne hexit
  rw [List.mem_singleton.1 htarget] at hrest
  exact ⟨t, n'', by omega, hR, hrest⟩

/-- A block of an entry and an exit is crossed by the edge between them. -/
theorem crosses_of_pair {n r : Nat} {R : Nat → Nat → Prop}
    (hmove : ∀ t k, A.Move holds xs base i t k → t = base + 1 ∧ R i k)
    (h : A.Route holds xs n base i r j) (hr : Beyond base 2 (base + 1) r) :
    A.Crosses holds xs (base + 1) R n i r j := by
  have hne : r ≠ base := by
    unfold Beyond at hr
    omega
  obtain ⟨t, k, n', rfl, hfirst, hrest⟩ := h.exists_move hne
  obtain ⟨rfl, hR⟩ := hmove t k hfirst
  exact ⟨k, n', Nat.le_succ n', hR, hrest⟩

end Automaton

/-! ### Copies -/

namespace CopyPlan

variable {plan : CopyPlan}

/-- The state that accepts lies between the copies and is in none of them. -/
theorem accept_not_in_copy (k : Nat) :
    plan.accept < plan.copyStart k ∨ plan.copyStart k + plan.width ≤ plan.accept := by
  unfold accept copyStart
  by_cases hk : k < plan.min
  · have hmul : (k + 1) * plan.width ≤ plan.min * plan.width := Nat.mul_le_mul_right _ hk
    rw [Nat.add_mul, Nat.one_mul] at hmul
    rw [if_pos hk]
    omega
  · have hmul : plan.min * plan.width ≤ k * plan.width :=
      Nat.mul_le_mul_right _ (Nat.not_lt.1 hk)
    rw [if_neg hk]
    omega

/-- What is beyond a repetition is beyond each of its copies. -/
theorem not_in_copy {k r : Nat} (hk : k < plan.copies)
    (hr : r < plan.base ∨ plan.limit ≤ r ∨ r = plan.accept) :
    r < plan.copyStart k ∨ plan.copyStart k + plan.width ≤ r := by
  have hbase := base_lt_copyStart plan k
  have hlimit := copyStart_add_width_le hk
  rcases hr with hr | hr | rfl
  · exact Or.inl (Nat.lt_trans hr hbase)
  · exact Or.inr (Nat.le_trans hlimit hr)
  · exact accept_not_in_copy k

/-- What is beyond a repetition is none of its junctions. -/
theorem ne_junction {k r : Nat} (hexit : plan.exit < plan.width) (hk : k ≤ plan.copies)
    (hr : r < plan.base ∨ plan.limit ≤ r ∨ r = plan.accept) : r ≠ plan.junction k := by
  cases k with
  | zero =>
    have hbase := base_lt_accept plan
    have hlimit := accept_lt plan
    rw [junction_zero]
    omega
  | succ k =>
    have hcopy := not_in_copy hk hr
    rw [junction_succ]
    omega

end CopyPlan

namespace Automaton

variable {A : Automaton π} {holds : π → α → Bool} {xs : List α} {base i j : Nat}
  {onward : List Nat}

/-- **Copies are taken off the front of a route**, one at a time. The induction is on
the number of edges: every copy is entered by one. -/
theorem crosses_copies {plan : CopyPlan} {R : Nat → Nat → Prop} {r : Nat}
    (hjunction : ∀ k ≤ plan.copies, A.state? (plan.junction k) = some (.junction (plan.onward k)))
    (hcopy : ∀ k < plan.copies, ∀ n i, A.Route holds xs n (plan.copyStart k) i r j →
      A.Crosses holds xs (plan.junction (k + 1)) R n i r j)
    (hne : ∀ k ≤ plan.copies, r ≠ plan.junction k) (n : Nat) {a : Nat} (ha : a ≤ plan.copies)
    (h : A.Route holds xs n (plan.junction a) i r j) :
    ∃ k, plan.min ≤ a + k ∧ (plan.max ≠ none → a + k ≤ plan.copies) ∧
      A.Crosses holds xs plan.accept (Iterated R k) n i r j := by
  induction n using Nat.strongRecOn generalizing a i with
  | ind n ih =>
    obtain ⟨t, n', rfl, ht, hrest⟩ := h.exists_onward (hne a ha) (hjunction a ha)
    rcases CopyPlan.mem_onward ha ht with ⟨rfl, hlt⟩ | ⟨rfl, hmin, -⟩ | ⟨rfl, hmax, rfl⟩
    · -- One more copy.
      obtain ⟨s, n'', hn'', hR, hroute⟩ := hcopy a hlt n' i hrest
      obtain ⟨k, hmin, hmost, t, m, hm, hiterated, hroute⟩ := ih n'' (by omega) hlt hroute
      refine ⟨k + 1, by omega, fun hmax => ?_, t, m, by omega, ⟨s, hR, hiterated⟩, hroute⟩
      have := hmost hmax
      omega
    · -- No more copies.
      exact ⟨0, hmin, fun _ => ha, i, n', Nat.le_succ n', rfl, hrest⟩
    · -- Round the loop.
      have hmincopies : plan.min ≤ plan.copies := Pattern.min_le_copies plan.min plan.max
      obtain ⟨k, hmin, -, hcrosses⟩ := ih n' (Nat.lt_succ_self n') hmincopies hrest
      exact ⟨k, by omega, fun hne => absurd hmax hne,
        hcrosses.mono (Nat.le_succ n') fun _ hR => hR⟩

mutual
/-- **What a block lets through, its pattern spans.** -/
theorem crosses_of_route : (p : Pattern π) → (base : Nat) → (onward : List Nat) →
    (n i r j : Nat) → A.Holds base (p.layout base onward) → A.Route holds xs n base i r j →
    Beyond base p.stateCount (base + p.exitOffset) r →
    A.Crosses holds xs (base + p.exitOffset) (p.Spans holds xs) n i r j
  | .predicate handle, base, onward, n, i, r, j, hA, hroute, hr => by
    refine crosses_of_pair ?_ hroute hr
    intro t k hmove
    obtain ⟨rfl, rfl, x, hx, hmeets⟩ := hmove.of_reader hA.first
    exact ⟨rfl, rfl, x, hx, hmeets⟩
  | .any, base, onward, n, i, r, j, hA, hroute, hr => by
    refine crosses_of_pair ?_ hroute hr
    intro t k hmove
    obtain ⟨rfl, rfl, x, hx, -⟩ := hmove.of_reader hA.first
    exact ⟨rfl, rfl, x, hx⟩
  | .sequence children, base, onward, n, i, r, j, hA, hroute, hr =>
    crosses_of_route_sequence children base onward n i r j hA hroute hr
  | .alternation left right, base, onward, n, i, r, j, hA, hroute, hr => by
    obtain ⟨hentry, hleft, hright⟩ := holds_alternation hA
    have hexit : base + (Pattern.alternation left right).exitOffset =
        base + 1 + left.stateCount + right.stateCount := by
      simp only [Pattern.exitOffset]
      omega
    rw [hexit] at hr ⊢
    simp only [Beyond, Pattern.stateCount] at hr
    have hleftexit := left.exitOffset_lt
    have hrightexit := right.exitOffset_lt
    obtain ⟨t, n', rfl, ht, hrest⟩ := hroute.exists_onward (by omega) hentry
    simp only [List.mem_cons, List.not_mem_nil, or_false] at ht
    -- What is beyond the alternation is beyond both of its sides.
    rcases ht with rfl | rfl
    · have hcrosses := crosses_of_route left _ _ n' i r j hleft hrest (by
        unfold Beyond
        omega)
      exact (hcrosses.through (by omega) hleft.exit).mono (Nat.le_succ n') fun _ => Or.inl
    · have hcrosses := crosses_of_route right _ _ n' i r j hright hrest (by
        unfold Beyond
        omega)
      exact (hcrosses.through (by omega) hright.exit).mono (Nat.le_succ n') fun _ => Or.inr
  | .repetition child min max greedy, base, onward, n, i, r, j, hA, hroute, hr => by
    obtain ⟨-, hcopies, -⟩ := holds_repetition hA
    have hwidth : (Pattern.copyPlan child base min max greedy).exit <
        (Pattern.copyPlan child base min max greedy).width := child.exitOffset_lt
    have haccept : base + (Pattern.repetition child min max greedy).exitOffset =
        (Pattern.copyPlan child base min max greedy).accept := by
      simp only [Pattern.exitOffset, CopyPlan.accept, Pattern.copyPlan]
      omega
    rw [haccept] at hr ⊢
    obtain ⟨k, hmin, hmost, hcrosses⟩ := crosses_copies (R := fun i j => child.Spans holds xs i j)
      (fun k hk => state?_junction hA hk) (fun k hk n i hroute => by
        refine crosses_of_route child _ _ n i r j (hcopies k hk) hroute ?_
        rcases CopyPlan.not_in_copy hk hr with hr | hr
        · exact Or.inl hr
        · exact Or.inr (Or.inl hr))
      (fun k hk => CopyPlan.ne_junction hwidth hk hr) n (Nat.zero_le _) hroute
    rw [Nat.zero_add] at hmin hmost
    refine hcrosses.mono (Nat.le_refl n) ?_
    intro t hiterated
    refine ⟨k, hmin, ?_, hiterated⟩
    -- A bound on the copies that are laid out is a bound on the copies that are made.
    intro most hmax
    have hmax' : (Pattern.copyPlan child base min max greedy).max = some most := hmax
    have hle := hmost (by rw [hmax']; exact Option.some_ne_none most)
    rw [CopyPlan.copies_of_max_eq_some hmax'] at hle
    exact hle
  | .anchor .atStart, base, onward, n, i, r, j, hA, hroute, hr => by
    refine crosses_of_pair ?_ hroute hr
    intro t k hmove
    obtain ⟨rfl, rfl, hholds⟩ := hmove.of_gate hA.first
    have hstart : k = 0 := by simpa using hholds
    exact ⟨rfl, hstart, hstart⟩
  | .anchor .atEnd, base, onward, n, i, r, j, hA, hroute, hr => by
    refine crosses_of_pair ?_ hroute hr
    intro t k hmove
    obtain ⟨rfl, rfl, hholds⟩ := hmove.of_gate hA.first
    have hend : xs.length = k := by simpa using hholds
    exact ⟨rfl, hend.symm, hend.symm⟩

theorem crosses_of_route_sequence : (ps : List (Pattern π)) → (base : Nat) →
    (onward : List Nat) → (n i r j : Nat) →
    A.Holds base (Pattern.layoutSequence ps base onward) → A.Route holds xs n base i r j →
    Beyond base (Pattern.sequenceCount ps) (base + Pattern.sequenceExit ps) r →
    A.Crosses holds xs (base + Pattern.sequenceExit ps) (Pattern.SpansAll holds xs ps) n i r j
  | [], base, onward, n, i, r, j, hA, hroute, hr => by
    have hne : r ≠ base := by
      simp only [Beyond, Pattern.sequenceCount, Pattern.sequenceExit] at hr
      omega
    obtain ⟨t, n', rfl, ht, hrest⟩ := hroute.exists_onward hne hA.first
    rw [List.mem_singleton.1 ht] at hrest
    exact ⟨i, n', Nat.le_succ n', rfl, hrest⟩
  | [child], base, onward, n, i, r, j, hA, hroute, hr =>
    (crosses_of_route child base onward n i r j hA hroute hr).mono (Nat.le_refl n)
      fun t hspans => ⟨t, hspans, rfl⟩
  | child :: next :: rest, base, onward, n, i, r, j, hA, hroute, hr => by
    -- The route crosses the first block, then the edge to the next one, then the others.
    obtain ⟨hfirst, hothers⟩ := holds_sequence hA
    have hexit : base + Pattern.sequenceExit (child :: next :: rest) =
        base + child.stateCount + Pattern.sequenceExit (next :: rest) := by
      simp only [Pattern.sequenceExit]
      omega
    rw [hexit] at hr ⊢
    simp only [Beyond, Pattern.sequenceCount] at hr
    have hchildexit := child.exitOffset_lt
    have hrestexit := Pattern.sequenceExit_lt (next :: rest)
    have hcrosses := crosses_of_route child _ _ n i r j hfirst hroute (by
      unfold Beyond
      omega)
    obtain ⟨t, n', hn', hspans, hrest⟩ := hcrosses.through (by omega) hfirst.exit
    have hothers' := crosses_of_route_sequence (next :: rest) _ _ n' t r j hothers hrest (by
      unfold Beyond
      omega)
    obtain ⟨s, m, hm, hspansAll, hroute'⟩ := hothers'
    exact ⟨s, m, Nat.le_trans hm hn', ⟨t, hspans, hspansAll⟩, hroute'⟩
end

/-! ## A whole automaton -/

/-- **The layout is right.** Runs lead from the start to the accepting state exactly over
what the pattern spans. -/
theorem reaches_accept_iff (p : Pattern π) (i j : Nat) :
    (ofPattern p).Reaches holds xs (ofPattern p).start i (ofPattern p).accept j ↔
      p.Spans holds xs i j := by
  have hA := holds_ofPattern p
  constructor
  · rintro ⟨n, hroute⟩
    have haccept : (ofPattern p).accept = 0 + p.exitOffset := (Nat.zero_add _).symm
    rw [haccept] at hroute
    obtain ⟨t, n', -, hspans, hrest⟩ := crosses_of_route p 0 [] n i _ j hA hroute
      (Or.inr (Or.inr rfl))
    -- The exit of the whole block leads nowhere.
    cases hrest with
    | done => exact hspans
    | step hmove _ =>
      obtain ⟨ht, -⟩ := hmove.of_junction hA.exit
      cases ht
  · intro hspans
    have hreaches := reaches_of_spans p 0 [] i j hA hspans
    rw [Nat.zero_add] at hreaches
    exact hreaches

end Automaton

end Motif
