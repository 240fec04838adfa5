/-
Laying a pattern out as an automaton.

Every node of the pattern becomes a block of consecutive states with one entry
and one exit. The entry is always the first state of its block, and where the
exit lies depends on the node alone (`exitOffset`). That makes the layout a
function of three things: the node, the number of the block's first state, and
the edges by which the exit leads on. Nothing is ever patched up afterwards, and
moving a block only shifts its numbers.

A node lays its children's blocks out one after another and tells each child's
exit where to go next. A sequence needs no states of its own; a repetition lays
its child out as many times as its larger bound asks for, or once more than its
lower bound with an edge back for a loop (`CopyPlan`). The lengths add up to
`Pattern.stateCount` (`length_layout`).

The states of an automaton lie behind one another in memory, so room for all of them is
asked for before the first one is made. A count may be within a budget, and even be a
word, and still be more than there can be room for (`HasRoom`). Then compiling stops
with a fault.
-/
import Motif.Pattern.Size
import Motif.Automaton.Basic
import Motif.BuildError
import Motif.Fault

set_option autoImplicit false

namespace Motif

/-! ## Copies of a repeated block

Junction `k` is the state that is reached after `k` copies: the repetition's own
entry for `k = 0`, the exit of the `k`-th copy otherwise. The copies that have to
be there lie before the repetition's accepting state, all others behind it. -/

/-- Where a repetition puts the copies of its child. -/
structure CopyPlan where
  /-- The number of the repetition's entry. -/
  base : Nat
  /-- How many states a copy has. -/
  width : Nat
  /-- Where the exit of a copy lies, counted from its entry. -/
  exit : Nat
  /-- How many copies have to be there. -/
  min : Nat
  /-- How many copies there may be. -/
  max : Option Nat
  /-- Is one more copy preferred to going on? -/
  greedy : Bool

namespace CopyPlan

/-- The entry of copy `k`, counted from zero. -/
def copyStart (plan : CopyPlan) (k : Nat) : Nat :=
  plan.base + 1 + k * plan.width + if k < plan.min then 0 else 1

/-- The state that accepts, right behind the copies that have to be there. -/
def accept (plan : CopyPlan) : Nat := plan.base + 1 + plan.min * plan.width

/-- The state that is reached after `k` copies. -/
def junction (plan : CopyPlan) : Nat → Nat
  | 0 => plan.base
  | k + 1 => plan.copyStart k + plan.exit

/-- Copy `k` or the end, the preferred one first. -/
def choice (plan : CopyPlan) (k : Nat) : List Nat :=
  if plan.greedy then [plan.copyStart k, plan.accept] else [plan.accept, plan.copyStart k]

/-- The edges that leave junction `k`. While copies have to be there, they lead
into the next copy; while there may be more, they leave a choice. Behind the last
copy they lead to the accepting state or, for a loop, back to the junction at
which the loop is entered. -/
def onward (plan : CopyPlan) (k : Nat) : List Nat :=
  if k < plan.min then [plan.copyStart k] else
    match plan.max with
    | some max => if k < max then plan.choice k else [plan.accept]
    | none => if k = plan.min then plan.choice k else [plan.junction plan.min]

end CopyPlan

namespace Pattern

variable {π : Type}

/-! ## Entry and exit -/

mutual
/-- Where the exit of the pattern's block lies, counted from its entry. -/
def exitOffset : Pattern π → Nat
  | predicate _ => 1
  | any => 1
  | sequence children => sequenceExit children
  | repetition child min _ _ => 1 + min * stateCount child
  | alternation left right => 1 + stateCount left + stateCount right
  | anchor _ => 1

/-- Where the exit of a sequence lies: at the exit of its last child. -/
def sequenceExit : List (Pattern π) → Nat
  | [] => 1
  | [child] => exitOffset child
  | child :: next :: rest => stateCount child + sequenceExit (next :: rest)
end

/-- How a repetition whose entry is `base` lays out its child. -/
def copyPlan (child : Pattern π) (base min : Nat) (max : Option Nat) (greedy : Bool) : CopyPlan :=
  ⟨base, child.stateCount, child.exitOffset, min, max, greedy⟩

/-! ## The layout -/

mutual
/-- The states of the pattern's block if its entry has the number `base` and its
exit leads to `onward`. -/
def layout : Pattern π → (base : Nat) → (onward : List Nat) → List (State π)
  | predicate handle, base, onward =>
    [.reader (.predicate handle) (base + 1), .junction onward]
  | any, base, onward => [.reader .any (base + 1), .junction onward]
  | sequence children, base, onward => layoutSequence children base onward
  | repetition child min max greedy, base, onward =>
    let plan := copyPlan child base min max greedy
    let copy := fun k => layout child (plan.copyStart k) (plan.onward (k + 1))
    .junction (plan.onward 0) :: (List.range min).flatMap copy ++
      .junction onward :: (List.range' min (copies min max - min)).flatMap copy
  | alternation left right, base, onward =>
    let second := base + 1 + stateCount left
    let accept := second + stateCount right
    .junction [base + 1, second] :: layout left (base + 1) [accept] ++
      layout right second [accept] ++ [.junction onward]
  | anchor condition, base, onward => [.gate condition (base + 1), .junction onward]

/-- The blocks of a sequence's children in order, each exit leading to the next
entry. A sequence without children is an entry that leads to an exit. -/
def layoutSequence : List (Pattern π) → (base : Nat) → (onward : List Nat) → List (State π)
  | [], base, onward => [.junction [base + 1], .junction onward]
  | [child], base, onward => layout child base onward
  | child :: next :: rest, base, onward =>
    layout child base [base + stateCount child] ++
      layoutSequence (next :: rest) (base + stateCount child) onward
end

/-! ## Its length -/

theorem copies_sub_add (min : Nat) (max : Option Nat) :
    min + (copies min max - min) = copies min max := by
  cases max with
  | none => simp [copies]
  | some max => simp only [copies, Nat.max_def]; split <;> omega

theorem length_flatMap_const {α β : Type} (n : Nat) (f : α → List β) (xs : List α)
    (h : ∀ x ∈ xs, (f x).length = n) : (xs.flatMap f).length = xs.length * n := by
  induction xs with
  | nil => simp
  | cons x xs ih =>
    rw [List.flatMap_cons, List.length_append, h x (by simp),
      ih fun y hy => h y (by simp [hy]), List.length_cons, Nat.succ_mul, Nat.add_comm]

mutual
/-- A block has exactly as many states as were counted beforehand, wherever it is
put and wherever it leads. -/
theorem length_layout : (p : Pattern π) → (base : Nat) → (onward : List Nat) →
    (layout p base onward).length = stateCount p
  | predicate _, _, _ => rfl
  | any, _, _ => rfl
  | anchor _, _, _ => rfl
  | sequence children, base, onward => by
    simpa only [layout, stateCount] using length_layoutSequence children base onward
  | alternation left right, base, onward => by
    simp only [layout, stateCount, List.length_append, List.length_cons, List.length_nil,
      length_layout left, length_layout right]
    omega
  | repetition child min max greedy, base, onward => by
    have copy := fun k (_ : k ∈ List.range min) =>
      length_layout child ((copyPlan child base min max greedy).copyStart k)
        ((copyPlan child base min max greedy).onward (k + 1))
    have more := fun k (_ : k ∈ List.range' min (copies min max - min)) =>
      length_layout child ((copyPlan child base min max greedy).copyStart k)
        ((copyPlan child base min max greedy).onward (k + 1))
    simp only [layout, stateCount, List.length_append, List.length_cons,
      length_flatMap_const _ _ _ copy, length_flatMap_const _ _ _ more, List.length_range,
      List.length_range']
    have := congrArg (· * child.stateCount) (copies_sub_add min max)
    simp only [Nat.add_mul] at this
    omega

/-- The blocks of a sequence add up to its count. -/
theorem length_layoutSequence : (ps : List (Pattern π)) → (base : Nat) →
    (onward : List Nat) → (layoutSequence ps base onward).length = sequenceCount ps
  | [], _, _ => rfl
  | [child], base, onward => by
    simpa only [layoutSequence, sequenceCount] using length_layout child base onward
  | child :: next :: rest, base, onward => by
    simp only [layoutSequence, sequenceCount, List.length_append,
      length_layout child, length_layoutSequence (next :: rest)]
end

end Pattern

/-! ## The automaton of a pattern -/

namespace Automaton

variable {π : Type}

/-- The automaton of a pattern: its block at number zero, with an exit that leads
nowhere. -/
def ofPattern (p : Pattern π) : Automaton π where
  states := (p.layout 0 []).toArray
  start := 0
  accept := p.exitOffset

@[simp] theorem size_ofPattern (p : Pattern π) : (ofPattern p).size = p.stateCount := by
  simp [size, ofPattern, Pattern.length_layout]

/-- The automaton of a pattern, if it has at most `budget` states. The states are
counted first, so that a refusal costs nothing. -/
def ofPatternWithin (budget : Nat) (p : Pattern π) : Except BuildError (Automaton π) :=
  if p.fits budget then .ok (ofPattern p) else .error .tooManyStates

/-! ## Room for the states -/

/-- The bytes of a state: three words for each of its two lists of edges, and one for
its anchor. -/
def stateBytes : Nat := 56

/-- The largest number of bytes that can lie behind one another. The difference of two
addresses has to be a signed word. -/
def maxBytes : Nat := 0x7fffffffffffffff

/-- Can there be room for so many states? -/
def HasRoom (count : Nat) : Prop := count * stateBytes ≤ maxBytes

instance : DecidablePred HasRoom := fun count =>
  inferInstanceAs (Decidable (count * stateBytes ≤ maxBytes))

/-- Asks for room for so many states. -/
def reserve (count : Nat) : Except Fault Unit :=
  if HasRoom count then .ok () else .error (.noRoom count)

/-- Asks for room for the states of a pattern. If they cannot be counted, none is asked
for beforehand. -/
def reserveFor (p : Pattern π) : Except Fault Unit := reserve (p.checkedStateCount.getD 0)

/-- Compiles a pattern: asks for room, and then lays the pattern out. -/
def compile (p : Pattern π) : Except Fault (Automaton π) := do
  reserveFor p
  return ofPattern p

/-- Compiles a pattern if its automaton has at most `budget` states. A pattern that is
refused is no reason to ask for room. -/
def compileWithin (budget : Nat) (p : Pattern π) :
    Except Fault (Except BuildError (Automaton π)) := do
  if p.fits budget then reserveFor p
  return ofPatternWithin budget p

/-- The room that was asked for does not show in the automaton, and neither does the
budget. -/
theorem eq_ofPattern_of_compileWithin {budget : Nat} {p : Pattern π} {A : Automaton π}
    (h : compileWithin budget p = .ok (.ok A)) : A = ofPattern p := by
  unfold compileWithin ofPatternWithin at h
  by_cases hfits : p.fits budget = true
  · rw [if_pos hfits, if_pos hfits] at h
    cases hroom : reserveFor p with
    | error fault =>
      rw [hroom] at h
      cases h
    | ok =>
      rw [hroom] at h
      cases h
      rfl
  · rw [if_neg hfits, if_neg hfits] at h
    cases h

end Automaton

end Motif
