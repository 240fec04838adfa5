/-
Where the states of a pattern are put does not matter.

A builder changes an automaton by number, and the numbers it uses are handed to it by
earlier steps. So it has to be shown for every step that the number it names is one of
its own. The judgement `Turns` says so: the states that were there stay in front,
untouched, and the block behind them becomes another block.

Of a block that is being built, one state is still open: the edges that leave it are
only added later, by whoever asked for the block. A block is therefore a function of
the edges of its exit, and `OpenAt` says that an edge which is added to the exit is the
same as one more edge in the argument. What the loops of a repetition have built after
some of their rounds is such a function too (`firstRounds`, `moreRounds`), so a round is
one copy appended and one edge added, and the last round leaves the layout of the
repetition (`layout_repetition`).

The layout is a function of the number at which it begins, and the number only shifts
it (`layout_shift`). With both, what a builder appends to any automaton is the
automaton of the pattern with its numbers shifted, and the copies of a child are shifted
copies of the automaton of the child.
-/
import Motif.Automaton.Builder
import Motif.Proofs.Blocks

set_option autoImplicit false

namespace Motif

variable {π β γ : Type}

/-! ## Changing a list at a place -/

theorem modify_append_right {α : Type} (f : α → α) (xs ys : List α) (i : Nat) :
    (xs ++ ys).modify (xs.length + i) f = xs ++ ys.modify i f :=
  List.modifyTailIdx_add (List.modifyHead f) i xs ys

theorem modify_append_left {α : Type} (f : α → α) {xs : List α} (ys : List α) {i : Nat}
    (h : i < xs.length) : (xs ++ ys).modify i f = xs.modify i f ++ ys := by
  obtain ⟨front, x, back, rfl, hfront, hmodify⟩ := List.exists_of_modify f h
  subst hfront
  rw [hmodify, List.append_assoc, List.append_assoc, List.cons_append, List.cons_append]
  simpa using modify_append_right f front (x :: (back ++ ys)) 0

/-! ## Blocks with an open exit -/

/-- State `q` is the exit of a block that begins at `base` and is given by the edges of its
exit: edges that are added to the state are added to the argument. -/
structure OpenAt (base : Nat) (block : List Nat → List (State π)) (q : Nat) : Prop where
  le : base ≤ q
  lt : ∀ onward, q < base + (block onward).length
  lead : ∀ onward targets,
    (block onward).modify (q - base) (State.lead targets) = block (onward ++ targets)

namespace OpenAt

variable {base q : Nat} {block : List Nat → List (State π)}

/-- A junction is open. -/
theorem junction (base : Nat) :
    OpenAt base (fun onward => [(State.junction onward : State π)]) base where
  le := Nat.le_refl base
  lt := fun _ => Nat.lt_succ_self base
  lead := fun onward targets => by
    rw [Nat.sub_self]
    rfl

/-- What stands in front of a block does not matter to its exit. -/
theorem behind {start : Nat} (h : OpenAt start block q) (front : List (State π))
    (hstart : start = base + front.length) :
    OpenAt base (fun onward => front ++ block onward) q where
  le := by
    have := h.le
    omega
  lt := fun onward => by
    have := h.lt onward
    rw [List.length_append]
    omega
  lead := fun onward targets => by
    have hle := h.le
    have hplace : q - base = front.length + (q - start) := by omega
    rw [hplace, modify_append_right, h.lead]

/-- What stands behind a block does not matter to its exit. -/
theorem before (h : OpenAt base block q) (rest : List (State π)) :
    OpenAt base (fun onward => block onward ++ rest) q where
  le := h.le
  lt := fun onward => by
    have := h.lt onward
    rw [List.length_append]
    omega
  lead := fun onward targets => by
    have hle := h.le
    have hplace : q - base < (block onward).length := by
      have := h.lt onward
      omega
    rw [modify_append_left _ _ hplace, h.lead]

end OpenAt

namespace Pattern

/-- A block of two states is open at the second. -/
theorem openAt_pair (base : Nat) (entry : State π) :
    OpenAt base (fun onward => [entry, .junction onward]) (base + 1) :=
  (OpenAt.junction (base + 1)).behind [entry] rfl

mutual
/-- **A block is open at its exit.** -/
theorem openAt_layout : (p : Pattern π) → (base : Nat) →
    OpenAt base (p.layout base) (base + p.exitOffset)
  | predicate _, base => openAt_pair base _
  | any, base => openAt_pair base _
  | anchor _, base => openAt_pair base _
  | sequence children, base => openAt_layoutSequence children base
  | alternation left right, base => by
    refine (OpenAt.junction _).behind _ ?_
    simp only [exitOffset, List.length_append, List.length_cons, length_layout]
    omega
  | repetition child min max greedy, base => by
    -- The exit stands between the copies that have to be there and the others.
    refine ((OpenAt.junction _).before _).behind _ ?_
    rw [exitOffset, List.length_cons, length_firstCopies, Nat.add_comm 1]

theorem openAt_layoutSequence : (ps : List (Pattern π)) → (base : Nat) →
    OpenAt base (layoutSequence ps base) (base + sequenceExit ps)
  | [], base => openAt_pair base _
  | [child], base => openAt_layout child base
  | child :: next :: rest, base => by
    have hrest := openAt_layoutSequence (next :: rest) (base + child.stateCount)
    rw [sequenceExit, ← Nat.add_assoc]
    exact hrest.behind _ (by rw [length_layout])
end

end Pattern

/-! ## Steps that only work at the end -/

namespace Automaton

/-- The automaton with a block behind its states. -/
def append (A : Automaton π) (block : List (State π)) : Automaton π :=
  { A with states := A.states ++ block.toArray }

variable {A : Automaton π}

@[simp] theorem append_nil (A : Automaton π) : A.append [] = A := by simp [append]

theorem append_append (A : Automaton π) (block more : List (State π)) :
    (A.append block).append more = A.append (block ++ more) := by
  simp [append]

@[simp] theorem size_append (A : Automaton π) (block : List (State π)) :
    (A.append block).size = A.size + block.length := by
  simp [append, size]

end Automaton

/-- The step succeeds and turns one block behind the states of `A` into another. The states
of `A` stay as they are. -/
def Turns (A : Automaton π) (m : Build π β) (block : List (State π)) (result : β)
    (block' : List (State π)) : Prop :=
  m.run (A.append block) = .ok (result, A.append block')

namespace Turns

variable {A : Automaton π} {block block' block'' : List (State π)} {b : β} {c : γ}

theorem pure (b : β) (block : List (State π)) : Turns A (Pure.pure b) block b block := rfl

theorem bind {m : Build π β} {f : β → Build π γ} (h : Turns A m block b block')
    (hf : Turns A (f b) block' c block'') : Turns A (m >>= f) block c block'' := by
  unfold Turns at *
  rw [StateT.run_bind, h]
  exact hf

/-- A new state stands behind all others. -/
theorem addState (block : List (State π)) :
    Turns A Build.addState block (A.size + block.length) (block ++ [.junction []]) := by
  show Except.ok _ = Except.ok _
  rw [Automaton.size_append, ← Automaton.append_append]
  simp [Automaton.append, State.junction]

/-- A change within the block changes nothing else. -/
theorem change (f : State π → State π) (block : List (State π)) {i : Nat}
    (h : i < block.length) :
    Turns A (Build.change (A.size + i) f) block () (block.modify i f) := by
  have hlt : A.size + i < (A.append block).size := by
    rw [Automaton.size_append]
    omega
  have hstates : (A.append block).states.modify (A.size + i) f =
      A.states ++ (block.modify i f).toArray := by
    rw [← Array.toList_inj, Array.toList_modify, Array.toList_append]
    simpa [Automaton.append, Automaton.size] using modify_append_right f A.states.toList block i
  show (if _ then _ else _) = _
  rw [if_pos hlt, hstates]
  rfl

/-- An edge that is added to the exit of a block. -/
theorem addSilent {family : List Nat → List (State π)} {q : Nat} (h : OpenAt A.size family q)
    (onward : List Nat) (target : Nat) :
    Turns A (Build.addSilent q target) (family onward) () (family (onward ++ [target])) := by
  have hle := h.le
  have hlt := h.lt onward
  have hchange := change (A := A) (State.lead [target]) (family onward) (i := q - A.size)
    (by omega)
  rw [h.lead, Nat.add_sub_cancel' hle] at hchange
  exact hchange

/-- Both edges of a choice, in the order of preference. -/
theorem addChoice {family : List Nat → List (State π)} {q : Nat} (h : OpenAt A.size family q)
    (more done : Nat) (greedy : Bool) :
    Turns A (Build.addChoice q more done greedy) (family []) ()
      (family (if greedy then [more, done] else [done, more])) := by
  cases greedy with
  | true => exact (addSilent h [] more).bind (addSilent h [more] done)
  | false => exact (addSilent h [] done).bind (addSilent h [done] more)

end Turns

/-- The builder appends the block of the pattern, whatever it is appended to. -/
def Lays (m : Build π Fragment) (p : Pattern π) : Prop :=
  ∀ A : Automaton π, Turns A m [] ⟨A.size, A.size + p.exitOffset⟩ (p.layout A.size [])

/-- Behind a block as well. -/
theorem Lays.turns {m : Build π Fragment} {p : Pattern π} (h : Lays m p) (A : Automaton π)
    (block : List (State π)) {start : Nat} (hstart : start = A.size + block.length) :
    Turns A m block ⟨start, start + p.exitOffset⟩ (block ++ p.layout start []) := by
  have hblock := h (A.append block)
  unfold Turns at *
  rw [Automaton.append_nil, Automaton.append_append, Automaton.size_append, ← hstart] at hblock
  exact hblock

/-- A block is led on into the one that is appended behind it. What remains to be done goes on
from the exit of that one. -/
theorem Lays.next {A : Automaton π} {m : Build π Fragment} {p : Pattern π}
    {block : List Nat → List (State π)} {block' : List (State π)} {q start : Nat} {c : γ}
    (h : Lays m p) (hopen : OpenAt A.size block q)
    (hstart : start = A.size + (block []).length) (rest : Nat → Build π γ)
    (hrest : Turns A (rest (start + p.exitOffset)) (block [start] ++ p.layout start []) c block') :
    Turns A (do
      let next ← m
      Build.addSilent q next.entry
      rest next.exit) (block []) c block' := by
  have hblock := h.turns A (block []) hstart
  have hedge := Turns.addSilent (hopen.before (p.layout start [])) [] start
  exact hblock.bind (hedge.bind hrest)

/-! ## The rounds of a repetition -/

namespace CopyPlan

variable {plan : CopyPlan}

/-- While copies have to be there, the only way on is into the next one. -/
theorem onward_of_lt_min {k : Nat} (h : k < plan.min) : plan.onward k = [plan.copyStart k] :=
  if_pos h

theorem onward_of_bounded {k most : Nat} (hmax : plan.max = some most) (hmin : plan.min ≤ k) :
    plan.onward k = if k < most then plan.choice k else [plan.accept] := by
  rw [onward, if_neg (Nat.not_lt.2 hmin), hmax]

theorem onward_of_loop {k : Nat} (hmax : plan.max = none) (hmin : plan.min ≤ k) :
    plan.onward k = if k = plan.min then plan.choice k else [plan.junction plan.min] := by
  rw [onward, if_neg (Nat.not_lt.2 hmin), hmax]

/-- The plan is made for copies of this child. -/
structure Suits (plan : CopyPlan) (child : Pattern π) : Prop where
  width : plan.width = child.stateCount
  exit : plan.exit = child.exitOffset

end CopyPlan

namespace Pattern

theorem suits_copyPlan (child : Pattern π) (base min : Nat) (max : Option Nat) (greedy : Bool) :
    (copyPlan child base min max greedy).Suits child := ⟨rfl, rfl⟩

/-- The states of a repetition after `k` rounds, all of them copies that have to be there. -/
def firstRounds (child : Pattern π) (plan : CopyPlan) : Nat → List Nat → List (State π)
  | 0, onward => [.junction onward]
  | k + 1, onward =>
    firstRounds child plan k (plan.onward k) ++ child.layout (plan.copyStart k) onward

/-- The states of a repetition after the copies that have to be there and `k` more. -/
def moreRounds (child : Pattern π) (plan : CopyPlan) : Nat → List Nat → List (State π)
  | 0, onward => firstRounds child plan plan.min onward ++ [.junction []]
  | k + 1, onward =>
    moreRounds child plan k (plan.onward (plan.min + k)) ++
      child.layout (plan.copyStart (plan.min + k)) onward

section Rounds

variable {child : Pattern π} {plan : CopyPlan}

theorem length_firstRounds (child : Pattern π) (plan : CopyPlan) (k : Nat) (onward : List Nat) :
    (firstRounds child plan k onward).length = 1 + k * child.stateCount := by
  induction k generalizing onward with
  | zero => simp [firstRounds]
  | succ k ih =>
    rw [firstRounds, List.length_append, ih, length_layout, Nat.succ_mul, Nat.add_assoc]

theorem length_moreRounds (child : Pattern π) (plan : CopyPlan) (k : Nat) (onward : List Nat) :
    (moreRounds child plan k onward).length = 2 + (plan.min + k) * child.stateCount := by
  induction k generalizing onward with
  | zero =>
    simp only [moreRounds, List.length_append, length_firstRounds, List.length_singleton,
      Nat.add_zero]
    omega
  | succ k ih =>
    rw [moreRounds, List.length_append, ih, length_layout, ← Nat.add_assoc plan.min,
      Nat.succ_mul, Nat.add_assoc]

/-- A round that has to be made puts its copy behind all states. -/
theorem copyStart_firstRounds (hplan : plan.Suits child) {k : Nat} (hk : k < plan.min)
    (onward : List Nat) :
    plan.copyStart k = plan.base + (firstRounds child plan k onward).length := by
  rw [length_firstRounds, CopyPlan.copyStart, if_pos hk, hplan.width]
  omega

/-- So does a round that is made in addition. -/
theorem copyStart_moreRounds (hplan : plan.Suits child) (k : Nat) (onward : List Nat) :
    plan.copyStart (plan.min + k) = plan.base + (moreRounds child plan k onward).length := by
  rw [length_moreRounds, CopyPlan.copyStart, if_neg (by omega), hplan.width]
  omega

theorem openAt_firstRounds (hplan : plan.Suits child) {k : Nat} (hk : k ≤ plan.min) :
    OpenAt plan.base (firstRounds child plan k) (plan.junction k) := by
  cases k with
  | zero => exact OpenAt.junction plan.base
  | succ k =>
    rw [CopyPlan.junction_succ, hplan.exit]
    exact (openAt_layout child _).behind _ (copyStart_firstRounds hplan hk _)

theorem openAt_moreRounds (hplan : plan.Suits child) (k : Nat) :
    OpenAt plan.base (moreRounds child plan k) (plan.junction (plan.min + k)) := by
  cases k with
  | zero => exact (openAt_firstRounds hplan (Nat.le_refl _)).before _
  | succ k =>
    rw [← Nat.add_assoc, CopyPlan.junction_succ, hplan.exit]
    exact (openAt_layout child _).behind _ (copyStart_moreRounds hplan k _)

/-- Once the exit of the last copy leads on as planned, the rounds have laid out all copies. -/
theorem firstRounds_onward (child : Pattern π) (plan : CopyPlan) (k : Nat) :
    firstRounds child plan k (plan.onward k) = .junction (plan.onward 0) ::
      (List.range k).flatMap fun k =>
        child.layout (plan.copyStart k) (plan.onward (k + 1)) := by
  induction k with
  | zero => rfl
  | succ k ih =>
    rw [firstRounds, ih, List.range_succ, List.flatMap_append, List.cons_append,
      List.flatMap_singleton]

theorem moreRounds_onward (child : Pattern π) (plan : CopyPlan) (k : Nat) :
    moreRounds child plan k (plan.onward (plan.min + k)) = .junction (plan.onward 0) ::
      (List.range plan.min).flatMap (fun k =>
        child.layout (plan.copyStart k) (plan.onward (k + 1))) ++
      .junction [] :: (List.range' plan.min k).flatMap fun k =>
        child.layout (plan.copyStart k) (plan.onward (k + 1)) := by
  induction k with
  | zero => rw [moreRounds, Nat.add_zero, firstRounds_onward]; rfl
  | succ k ih =>
    rw [moreRounds, ih, List.range'_concat, List.flatMap_append, List.flatMap_singleton,
      List.append_assoc, Nat.one_mul, Nat.add_assoc]
    rfl

/-- The layout of a repetition is what all its rounds leave. -/
theorem layout_repetition (child : Pattern π) (base min : Nat) (max : Option Nat) (greedy : Bool) :
    let plan := copyPlan child base min max greedy
    (repetition child min max greedy).layout base [] =
      moreRounds child plan (plan.copies - plan.min) (plan.onward plan.copies) := by
  intro plan
  have h := moreRounds_onward child plan (plan.copies - plan.min)
  have hcopies : plan.min + (plan.copies - plan.min) = plan.copies := copies_sub_add min max
  rw [hcopies] at h
  rw [h]
  rfl

end Rounds

end Pattern

/-! ## Building lays out -/

open Pattern

section Build

variable {A : Automaton π} {m : Build π Fragment} {child : Pattern π} {plan : CopyPlan}

/-- The rounds that have to be made. -/
theorem turns_addRequired (hm : Lays m child) (hplan : plan.Suits child)
    (hbase : plan.base = A.size) (count : Nat) {k : Nat} (hk : k + count ≤ plan.min) :
    Turns A (Build.addRequired m count (plan.junction k)) (firstRounds child plan k [])
      (plan.junction (k + count)) (firstRounds child plan (k + count) []) := by
  induction count generalizing k with
  | zero => exact Turns.pure _ _
  | succ count ih =>
    have hlt : k < plan.min := by omega
    have hstart := copyStart_firstRounds hplan hlt []
    have hopen := openAt_firstRounds hplan (Nat.le_of_lt hlt)
    rw [hbase] at hstart hopen
    have hrest := ih (k := k + 1) (by omega)
    rw [Nat.succ_add_eq_add_succ, CopyPlan.junction_succ, hplan.exit, firstRounds,
      CopyPlan.onward_of_lt_min hlt] at hrest
    exact hm.next hopen hstart (Build.addRequired m count) hrest

/-- The rounds that may be made in addition. -/
theorem turns_addOptional (hm : Lays m child) (hplan : plan.Suits child)
    (hbase : plan.base = A.size) {most : Nat} (hmax : plan.max = some most) (count : Nat)
    {k : Nat} (hk : k + count ≤ most - plan.min) :
    Turns A (Build.addOptional m plan.accept plan.greedy count (plan.junction (plan.min + k)))
      (moreRounds child plan k []) (plan.junction (plan.min + (k + count)))
      (moreRounds child plan (k + count) []) := by
  induction count generalizing k with
  | zero => exact Turns.pure _ _
  | succ count ih =>
    have hstart := copyStart_moreRounds hplan k []
    have hopen := openAt_moreRounds hplan k
    rw [hbase] at hstart hopen
    have hcopy := hm.turns A (moreRounds child plan k []) hstart
    have hedge := Turns.addChoice
      (hopen.before (child.layout (plan.copyStart (plan.min + k)) []))
      (plan.copyStart (plan.min + k)) plan.accept plan.greedy
    have hrest := ih (k := k + 1) (by omega)
    rw [Nat.succ_add_eq_add_succ, ← Nat.add_assoc plan.min k 1, CopyPlan.junction_succ,
      hplan.exit, moreRounds, CopyPlan.onward_of_bounded hmax (by omega),
      if_pos (by omega)] at hrest
    exact hcopy.bind (hedge.bind hrest)

/-- All that stands behind the copies that have to be there, with its last edge. -/
theorem turns_addFurther (hm : Lays m child) (hplan : plan.Suits child)
    (hbase : plan.base = A.size) :
    Turns A (Build.addFurther m plan.min plan.max plan.greedy (plan.junction plan.min) plan.accept)
      (moreRounds child plan 0 []) ()
      (moreRounds child plan (plan.copies - plan.min) (plan.onward plan.copies)) := by
  cases hmax : plan.max with
  | some most =>
    -- As many copies as the bound leaves, and the last one ends the repetition.
    have hrounds := turns_addOptional hm hplan hbase hmax (most - plan.min) (k := 0)
      (Nat.le_of_eq (Nat.zero_add _))
    rw [Nat.zero_add] at hrounds
    have hopen := openAt_moreRounds hplan (most - plan.min)
    rw [hbase] at hopen
    have hlast := Turns.addSilent hopen [] plan.accept
    have hcopies := CopyPlan.copies_of_max_eq_some hmax
    have hsub : plan.copies - plan.min = most - plan.min := by omega
    have honward : plan.onward plan.copies = [plan.accept] := by
      rw [CopyPlan.onward_of_bounded hmax (by omega), if_neg (by omega)]
    rw [hsub, honward]
    exact hrounds.bind hlast
  | none =>
    -- One more copy, from which the only way is back.
    have hstart := copyStart_moreRounds hplan 0 []
    have hopen := openAt_moreRounds hplan 0
    have hopenLoop := openAt_moreRounds hplan 1
    rw [hbase] at hstart hopen hopenLoop
    have hcopy := hm.turns A (moreRounds child plan 0 []) hstart
    have hchoice := Turns.addChoice (hopen.before (child.layout (plan.copyStart plan.min) []))
      (plan.copyStart plan.min) plan.accept plan.greedy
    have hback := Turns.addSilent hopenLoop [] (plan.junction plan.min)
    rw [moreRounds, Nat.add_zero plan.min, CopyPlan.onward_of_loop hmax (Nat.le_refl _),
      if_pos rfl, CopyPlan.junction_succ, hplan.exit] at hback
    have hcopies := CopyPlan.copies_of_max_eq_none hmax
    have hsub : plan.copies - plan.min = 1 := by omega
    have honward : plan.onward plan.copies = [plan.junction plan.min] := by
      rw [CopyPlan.onward_of_loop hmax (by omega), if_neg (by omega)]
    rw [hsub, honward]
    exact hcopy.bind (hchoice.bind hback)

/-- **The builder lays out a repetition** if it lays out the child. -/
theorem lays_repetition (hchild : Lays (Build.add child) child) (min : Nat) (max : Option Nat)
    (greedy : Bool) :
    Lays (Build.add (.repetition child min max greedy)) (.repetition child min max greedy) := by
  intro A
  let plan := copyPlan child A.size min max greedy
  have hplan : plan.Suits child := suits_copyPlan child A.size min max greedy
  have hexit : A.size + (repetition child min max greedy).exitOffset = plan.accept := by
    simp only [exitOffset, CopyPlan.accept, plan, copyPlan]
    omega
  have hentry : Turns A Build.addState [] A.size (firstRounds child plan 0 []) :=
    Turns.addState []
  have hfirst := turns_addRequired hchild hplan rfl min (k := 0) (Nat.le_of_eq (Nat.zero_add min))
  rw [Nat.zero_add] at hfirst
  have haccept := Turns.addState (A := A) (firstRounds child plan min [])
  have hplace : A.size + (firstRounds child plan min []).length = plan.accept := by
    rw [length_firstRounds, CopyPlan.accept]
    simp only [plan, copyPlan]
    omega
  rw [hplace] at haccept
  have hfurther := turns_addFurther hchild hplan rfl
  -- What these rounds leave is the layout, and the state that accepts is its exit.
  rw [hexit, layout_repetition]
  exact hentry.bind (hfirst.bind (haccept.bind (hfurther.bind (Turns.pure _ _))))

/-- Two states with an edge between them: an entry, and an exit that is left open. -/
theorem lays_single (label : Label π) {p : Pattern π} (hexit : p.exitOffset = 1)
    (hlayout : ∀ base, p.layout base [] = [.reader label (base + 1), .junction []]) :
    Lays (Build.addSingle label) p := by
  intro A
  rw [hexit, hlayout]
  have hreading := Turns.change (A := A)
    (fun state : State π => { state with reading := state.reading ++ [(label, A.size + 1)] })
    [.junction [], .junction []] (i := 0) Nat.zero_lt_two
  exact (Turns.addState []).bind ((Turns.addState _).bind (hreading.bind (Turns.pure _ _)))

theorem lays_anchor (condition : Anchor) :
    Lays (Build.addAnchor condition) (.anchor condition : Pattern π) := by
  intro A
  have hanchor := Turns.change (A := A)
    (fun state : State π => { state with anchor := some condition })
    [.junction [], .junction []] (i := 0) Nat.zero_lt_two
  have hedge := Turns.change (A := A) (State.lead [A.size + 1])
    [{ (.junction [] : State π) with anchor := some condition }, .junction []] (i := 0)
    Nat.zero_lt_two
  exact (Turns.addState []).bind ((Turns.addState _).bind
    (hanchor.bind (hedge.bind (Turns.pure _ _))))

theorem lays_alternation {left right : Pattern π} (hleft : Lays (Build.add left) left)
    (hright : Lays (Build.add right) right) :
    Lays (Build.add (.alternation left right)) (.alternation left right) := by
  intro A
  let second := A.size + 1 + left.stateCount
  let accept := second + right.stateCount
  have hlengthLeft : ∀ entry onward, second =
      A.size + ([entry] ++ left.layout (A.size + 1) onward).length := fun _ _ => by
    rw [List.length_append, length_layout, List.length_singleton, ← Nat.add_assoc]
  have hlengthRight : ∀ entry onward onward', accept =
      A.size + ([entry] ++ left.layout (A.size + 1) onward ++
        right.layout second onward').length := fun entry onward _ => by
    rw [List.length_append, length_layout, ← Nat.add_assoc, ← hlengthLeft entry onward]
  -- The states, one block behind the other.
  have hentry : Turns A Build.addState [] A.size [.junction []] := Turns.addState []
  have hfirst := hleft.turns A [.junction []] (show A.size + 1 = A.size + 1 from rfl)
  have hsecond := hright.turns A _ (hlengthLeft (.junction []) [])
  have haccept := Turns.addState (A := A)
    ([.junction []] ++ left.layout (A.size + 1) [] ++ right.layout second [])
  rw [← hlengthRight] at haccept
  -- The edges, each added to a block that is open there.
  have hopenEntry := (((OpenAt.junction A.size).before (left.layout (A.size + 1) [])).before
    (right.layout second [])).before [State.junction []]
  have hopenLeft := (((openAt_layout left (A.size + 1)).behind [.junction [A.size + 1, second]]
    (show A.size + 1 = A.size + 1 from rfl)).before
    (right.layout second [])).before [State.junction []]
  have hopenRight := ((openAt_layout right second).behind _
    (hlengthLeft (.junction [A.size + 1, second]) [accept])).before [State.junction []]
  have htoLeft := Turns.addSilent hopenEntry [] (A.size + 1)
  have htoRight := Turns.addSilent hopenEntry [A.size + 1] second
  have hfromLeft := Turns.addSilent hopenLeft [] accept
  have hfromRight := Turns.addSilent hopenRight [] accept
  have hexit : A.size + (alternation left right).exitOffset = accept := by
    simp only [exitOffset, accept, second]
    omega
  rw [hexit]
  exact hentry.bind (hfirst.bind (hsecond.bind (haccept.bind
    (htoLeft.bind (htoRight.bind (hfromLeft.bind (hfromRight.bind (Turns.pure _ _))))))))

mutual
/-- **The builder lays out the pattern.** -/
theorem lays_add : (p : Pattern π) → Lays (Build.add p) p
  | .predicate handle => lays_single (.predicate handle) rfl fun _ => rfl
  | .any => lays_single .any rfl fun _ => rfl
  | .anchor condition => lays_anchor condition
  | .sequence children => lays_addSequence children
  | .repetition child min max greedy => lays_repetition (lays_add child) min max greedy
  | .alternation left right => lays_alternation (lays_add left) (lays_add right)

theorem lays_addSequence : (children : List (Pattern π)) →
    Lays (Build.addSequence children) (.sequence children)
  | [] => by
    intro A
    have hedge := Turns.addSilent ((OpenAt.junction A.size).before [State.junction (π := π) []]) []
      (A.size + 1)
    exact (Turns.addState []).bind ((Turns.addState _).bind (hedge.bind (Turns.pure _ _)))
  | [child] => fun A => (lays_add child A).bind ((Turns.pure _ _).bind (Turns.pure _ _))
  | child :: next :: rest => by
    intro A
    have hfirst := lays_add child A
    have hrest := turns_addRest (next :: rest) (List.cons_ne_nil _ _) (A.size + child.stateCount)
      (openAt_layout child A.size) fun _ => by rw [length_layout]
    rw [Nat.add_assoc] at hrest
    exact hfirst.bind (hrest.bind (Turns.pure _ _))

/-- The children behind a block lead it on. -/
theorem turns_addRest : (rest : List (Pattern π)) → (hrest : rest ≠ []) →
    ∀ {A : Automaton π} {block : List Nat → List (State π)} {current : Nat} (start : Nat),
      OpenAt A.size block current → (∀ onward, start = A.size + (block onward).length) →
      Turns A (Build.addRest rest current) (block []) (start + sequenceExit rest)
        (block [start] ++ layoutSequence rest start [])
  | [], hrest, _, _, _, _, _, _ => absurd rfl hrest
  | [child], _, A, block, _, start, hopen, hstart =>
    (lays_add child).next hopen (hstart []) Pure.pure (Turns.pure _ _)
  | child :: next :: rest, _, A, block, _, start, hopen, hstart => by
    have hrest := turns_addRest (next :: rest) (List.cons_ne_nil _ _) (start + child.stateCount)
      ((openAt_layout child start).behind _ (hstart [start])) fun _ => by
        rw [List.length_append, length_layout, ← Nat.add_assoc, ← hstart]
    rw [Nat.add_assoc, List.append_assoc] at hrest
    exact (lays_add child).next hopen (hstart []) (Build.addRest (next :: rest)) hrest
end

end Build

/-! ## Shifted numbers -/

/-- The state with `k` added to all numbers that it names. -/
def State.shift (k : Nat) (state : State π) : State π where
  silent := state.silent.map (· + k)
  reading := state.reading.map fun (label, target) => (label, target + k)
  anchor := state.anchor

@[simp] theorem State.shift_junction (k : Nat) (onward : List Nat) :
    (State.junction onward : State π).shift k = .junction (onward.map (· + k)) := rfl

namespace CopyPlan

/-- The plan for a repetition that begins `k` states further on. -/
def shift (k : Nat) (plan : CopyPlan) : CopyPlan := { plan with base := plan.base + k }

theorem copyStart_shift (k : Nat) (plan : CopyPlan) (i : Nat) :
    (plan.shift k).copyStart i = plan.copyStart i + k := by
  show plan.base + k + 1 + i * plan.width + (if i < plan.min then 0 else 1) = _
  rw [copyStart]
  omega

theorem accept_shift (k : Nat) (plan : CopyPlan) : (plan.shift k).accept = plan.accept + k := by
  show plan.base + k + 1 + plan.min * plan.width = _
  rw [accept]
  omega

theorem junction_shift (k : Nat) (plan : CopyPlan) (i : Nat) :
    (plan.shift k).junction i = plan.junction i + k := by
  cases i with
  | zero => rfl
  | succ i =>
    rw [junction_succ, junction_succ, copyStart_shift]
    exact Nat.add_right_comm _ _ _

theorem choice_shift (k : Nat) (plan : CopyPlan) (i : Nat) :
    (plan.shift k).choice i = (plan.choice i).map (· + k) := by
  show (if plan.greedy then _ else _) = _
  rw [choice, copyStart_shift, accept_shift]
  split <;> rfl

theorem onward_shift (k : Nat) (plan : CopyPlan) (i : Nat) :
    (plan.shift k).onward i = (plan.onward i).map (· + k) := by
  by_cases hi : i < plan.min
  · have hshift : (plan.shift k).onward i = [(plan.shift k).copyStart i] := onward_of_lt_min hi
    rw [hshift, onward_of_lt_min hi, copyStart_shift]
    rfl
  · have hmin : plan.min ≤ i := Nat.not_lt.1 hi
    cases hmax : plan.max with
    | some most =>
      have hshift : (plan.shift k).onward i =
          if i < most then (plan.shift k).choice i else [(plan.shift k).accept] :=
        onward_of_bounded hmax hmin
      rw [hshift, onward_of_bounded hmax hmin, choice_shift, accept_shift]
      split <;> rfl
    | none =>
      have hshift : (plan.shift k).onward i =
          if i = plan.min then (plan.shift k).choice i else [(plan.shift k).junction plan.min] :=
        onward_of_loop hmax hmin
      rw [hshift, onward_of_loop hmax hmin, choice_shift, junction_shift]
      split <;> rfl

end CopyPlan

namespace Pattern

mutual
/-- **The number at which a block begins only shifts it.** -/
theorem layout_shift (k : Nat) : (p : Pattern π) → (base : Nat) → (onward : List Nat) →
    p.layout (base + k) (onward.map (· + k)) = (p.layout base onward).map (State.shift k)
  | predicate _, base, onward => by rw [layout, Nat.add_right_comm]; rfl
  | any, base, onward => by rw [layout, Nat.add_right_comm]; rfl
  | anchor _, base, onward => by rw [layout, Nat.add_right_comm]; rfl
  | sequence children, base, onward => layoutSequence_shift k children base onward
  | alternation left right, base, onward => by
    have hleft := layout_shift k left (base + 1) [base + 1 + left.stateCount + right.stateCount]
    have hright := layout_shift k right (base + 1 + left.stateCount)
      [base + 1 + left.stateCount + right.stateCount]
    simp only [List.map_cons, List.map_nil] at hleft hright
    simp only [layout, List.map_append, List.map_cons, List.map_nil, State.shift_junction,
      ← hleft, ← hright, Nat.add_right_comm _ _ k]
  | repetition child min max greedy, base, onward => by
    let plan := copyPlan child base min max greedy
    have hplan : copyPlan child (base + k) min max greedy = plan.shift k := rfl
    have hcopy : ∀ i, child.layout (plan.copyStart i + k) ((plan.onward (i + 1)).map (· + k)) =
        (child.layout (plan.copyStart i) (plan.onward (i + 1))).map (State.shift k) :=
      fun i => layout_shift k child _ _
    simp only [layout, hplan, CopyPlan.copyStart_shift, CopyPlan.onward_shift, hcopy,
      List.map_append, List.map_cons, List.map_flatMap, State.shift_junction]
    rfl

theorem layoutSequence_shift (k : Nat) : (ps : List (Pattern π)) → (base : Nat) →
    (onward : List Nat) → layoutSequence ps (base + k) (onward.map (· + k)) =
      (layoutSequence ps base onward).map (State.shift k)
  | [], base, onward => by rw [layoutSequence, Nat.add_right_comm]; rfl
  | [child], base, onward => layout_shift k child base onward
  | child :: next :: rest, base, onward => by
    have hfirst := layout_shift k child base [base + child.stateCount]
    have hrest := layoutSequence_shift k (next :: rest) (base + child.stateCount) onward
    simp only [List.map_cons, List.map_nil] at hfirst
    rw [Nat.add_right_comm] at hfirst hrest
    rw [layoutSequence, layoutSequence, List.map_append, hfirst, hrest]
end

/-- The states of a pattern anywhere, with an exit that leads nowhere, are those of its
automaton shifted. -/
theorem layout_eq_map_shift (p : Pattern π) (base : Nat) :
    p.layout base [] = (p.layout 0 []).map (State.shift base) := by
  have h := layout_shift base p 0 []
  rw [Nat.zero_add] at h
  exact h

end Pattern

/-! ## Copies of an automaton -/

namespace Automaton

variable {A B C : Automaton π}

/-- From `start` on, `B` has the states of `C` with shifted numbers. Only the accepting
one may differ: `further` silent edges leave it as well. -/
def HoldsCopy (B C : Automaton π) (start : Nat) (further : List Nat) : Prop :=
  ∀ i state, C.state? i = some state →
    B.state? (start + i) =
      some (if i = C.accept then (state.shift start).lead further else state.shift start)

/-- Every block is a copy. -/
theorem Holds.holdsCopy {p : Pattern π} {start : Nat} {onward : List Nat}
    (h : B.Holds start (p.layout start onward)) : B.HoldsCopy (ofPattern p) start onward := by
  intro i state hi
  rw [state?, ofPattern, List.getElem?_toArray] at hi
  have hopen := (openAt_layout p start).lead [] onward
  rw [Nat.add_sub_cancel_left, List.nil_append] at hopen
  refine h i _ ?_
  rw [← hopen, layout_eq_map_shift, List.getElem?_modify, List.getElem?_map, hi]
  show some (if p.exitOffset = i then _ else _) = some (if i = p.exitOffset then _ else _)
  simp only [eq_comm]

/-- What is appended to the states of an automaton stands behind them. -/
theorem holds_append (A : Automaton π) (block : List (State π)) :
    (A.append block).Holds A.size block := by
  intro k state hk
  rw [state?, append, size, Array.getElem?_append_right (Nat.le_add_right _ _),
    Nat.add_sub_cancel_left, List.getElem?_toArray]
  exact hk

theorem state?_append_of_lt {block : List (State π)} {q : Nat} (h : q < A.size) :
    (A.append block).state? q = A.state? q :=
  Array.getElem?_append_left h

end Automaton

namespace Pattern

/-- In the block of a pattern that begins at a number, a block of `part` begins at
`place`. -/
inductive PartAt (part : Pattern π) (place : Nat) : Pattern π → Nat → Prop where
  | whole : PartAt part place part place
  | first {child : Pattern π} {rest : List (Pattern π)} {base : Nat} :
    PartAt part place child base → PartAt part place (sequence (child :: rest)) base
  | later {child next : Pattern π} {rest : List (Pattern π)} {base : Nat} :
    PartAt part place (sequence (next :: rest)) (base + child.stateCount) →
      PartAt part place (sequence (child :: next :: rest)) base
  | copy {child : Pattern π} {min : Nat} {max : Option Nat} {greedy : Bool} {base k : Nat} :
    k < copies min max →
      PartAt part place child ((copyPlan child base min max greedy).copyStart k) →
      PartAt part place (repetition child min max greedy) base
  | left {left right : Pattern π} {base : Nat} :
    PartAt part place left (base + 1) → PartAt part place (alternation left right) base
  | right {left right : Pattern π} {base : Nat} :
    PartAt part place right (base + 1 + left.stateCount) →
      PartAt part place (alternation left right) base

/-- The parts of a pattern have their blocks where they are said to be. -/
theorem PartAt.holds {A : Automaton π} {part p : Pattern π} {place base : Nat}
    (h : PartAt part place p base) {onward : List Nat} (hA : A.Holds base (p.layout base onward)) :
    ∃ onward', A.Holds place (part.layout place onward') := by
  induction h generalizing onward with
  | whole => exact ⟨onward, hA⟩
  | @first child rest base _ ih =>
    cases rest with
    | nil => exact ih hA
    | cons next rest => exact ih (Automaton.holds_sequence hA).1
  | later _ ih => exact ih (Automaton.holds_sequence hA).2
  | copy hk _ ih => exact ih ((Automaton.holds_repetition hA).2.1 _ hk)
  | left _ ih => exact ih (Automaton.holds_alternation hA).2.1
  | right _ ih => exact ih (Automaton.holds_alternation hA).2.2

end Pattern

/-! ## The builder and the automaton of a pattern -/

namespace Automaton

/-- Built from nothing, the automaton is the one that is laid out at once. -/
theorem build_eq_ofPattern (p : Pattern π) : build p = .ok (ofPattern p) := by
  have h := lays_add p (⟨#[], 0, 0⟩ : Automaton π)
  unfold Turns at h
  rw [append_nil] at h
  rw [build, h]
  show Except.ok _ = Except.ok _
  simp [append, ofPattern, size]

/-- **A pattern is added behind all states, unchanged but for its numbers.** Whatever the
automaton, adding a pattern succeeds. The states that were there stay as they are, and the
automaton is entered and accepts where it did. Behind them stand the states of the pattern's
own automaton with the number of old states added to every number, entry and exit included;
so there are as many as that automaton has, and none of them leads to an old state. Wherever
a repetition stands in the pattern, each of its copies is the automaton of its child, shifted
to where the copy begins, but for the silent edges by which the repetition leads on from the
copy's exit. -/
theorem add_relocates (p : Pattern π) (A : Automaton π) :
    ∃ B : Automaton π,
      (Build.add p).run A =
        .ok (⟨A.size + (ofPattern p).start, A.size + (ofPattern p).accept⟩, B) ∧
      build p = .ok (ofPattern p) ∧
      B.states = A.states ++ (ofPattern p).states.map (State.shift A.size) ∧
      B.start = A.start ∧ B.accept = A.accept ∧
      (∀ q < A.size, B.state? q = A.state? q) ∧
      B.size = A.size + (ofPattern p).size ∧
      (∀ q state, A.size ≤ q → B.state? q = some state →
        (∀ t ∈ state.silent, A.size ≤ t ∧ t < B.size) ∧
          ∀ edge ∈ state.reading, A.size ≤ edge.2 ∧ edge.2 < B.size) ∧
      ∀ child min max greedy place,
        PartAt (.repetition child min max greedy) place p A.size → ∀ k < copies min max,
          B.HoldsCopy (ofPattern child) ((copyPlan child place min max greedy).copyStart k)
            ((copyPlan child place min max greedy).onward (k + 1)) := by
  have hrun := lays_add p A
  unfold Turns at hrun
  rw [append_nil] at hrun
  have hholds := holds_append A (p.layout A.size [])
  refine ⟨A.append (p.layout A.size []), hrun, build_eq_ofPattern p, ?_, rfl, rfl,
    fun q hq => state?_append_of_lt hq, ?_, ?_, ?_⟩
  · rw [append, layout_eq_map_shift, ofPattern, List.map_toArray]
  · rw [size_append, length_layout, size_ofPattern]
  · -- A block is confined to itself but for the edges that leave its exit, and this exit has none.
    intro q state hq hstate
    obtain ⟨i, rfl⟩ := Nat.exists_eq_add_of_le hq
    have hblock : (p.layout A.size [])[i]? = some state := by
      rw [state?, append, size, Array.getElem?_append_right (Nat.le_add_right _ _),
        Nat.add_sub_cancel_left, List.getElem?_toArray] at hstate
      exact hstate
    obtain ⟨hsilent, hreading⟩ := confined_layout p A.size [] state (List.mem_of_getElem? hblock)
    rw [size_append, length_layout]
    refine ⟨fun t ht => ?_, hreading⟩
    rcases hsilent t ht with hnone | hrange
    · cases hnone
    · exact hrange
  · intro child min max greedy place hpart k hk
    obtain ⟨onward, hrepetition⟩ := hpart.holds hholds
    exact ((holds_repetition hrepetition).2.1 k hk).holdsCopy

/-- A lazy repetition inside a sequence, added behind the two states of another automaton:
its copies begin at 5 and 8, on both sides of the state 7 that accepts. -/
theorem add_relocates_lazyPair :
    let p : Pattern Nat := .sequence [.any, .repetition (.predicate 3) 1 (some 2) false]
    let A : Automaton Nat := ofPattern .any
    PartAt (.repetition (.predicate 3) 1 (some 2) false) 4 p A.size ∧
      ∃ B : Automaton Nat, (Build.add p).run A = .ok (⟨2, 7⟩, B) ∧
        (∀ q < 2, B.state? q = A.state? q) ∧ B.size = 10 ∧
        B.HoldsCopy (ofPattern (.predicate 3)) 5 [7, 8] ∧
        B.HoldsCopy (ofPattern (.predicate 3)) 8 [7] := by
  intro p A
  have hpart : PartAt (.repetition (.predicate 3) 1 (some 2) false) 4 p A.size :=
    .later (.first .whole)
  obtain ⟨B, hrun, -, -, -, -, hold, hsize, -, hcopies⟩ := add_relocates p A
  have hfirst := hcopies _ _ _ _ 4 hpart 0 (by decide)
  have hsecond := hcopies _ _ _ _ 4 hpart 1 (by decide)
  exact ⟨hpart, B, hrun, hold, hsize, hfirst, hsecond⟩

end Automaton

end Motif
