/-
Ways through an automaton that consume elements of an input.

A route leads from a state at one position to a state at another one, by silent edges
and by reading edges whose label the next element meets. A state can only be left where
it may be entered. Where a route ends does not matter yet: only `Arrives` asks that the
last state may be entered too.

A route is read from both ends. Cut behind its last reading edge, it is one element
more than a shorter route, which is how an attempt goes on (`Route.last_read`). Cut
where it leaves a block for the first time, it is a way through that block, which is how
the meaning of a pattern comes out of its layout.
-/
import Motif.Proofs.Step

set_option autoImplicit false

namespace Motif

variable {π α : Type}

namespace Automaton

/-- One edge that can be followed from a state and a position. -/
inductive Move (A : Automaton π) (holds : π → α → Bool) (xs : List α) :
    Nat → Nat → Nat → Nat → Prop where
  /-- A silent edge leaves the position alone. -/
  | silent {q t i : Nat} {state : State π} (hq : A.state? q = some state)
    (hopen : state.admits i (some xs.length) = true) (ht : t ∈ state.silent) :
    Move A holds xs q i t i
  /-- A reading edge consumes the element at the position. -/
  | reading {q t i : Nat} {state : State π} {x : α} (hq : A.state? q = some state)
    (hopen : state.admits i (some xs.length) = true) (hx : xs[i]? = some x)
    (ht : Targets state.reading (Label.Meets holds x) t) : Move A holds xs q i t (i + 1)

/-- A way of so many edges. -/
inductive Route (A : Automaton π) (holds : π → α → Bool) (xs : List α) :
    Nat → Nat → Nat → Nat → Nat → Prop where
  | done (q i : Nat) : Route A holds xs 0 q i q i
  | step {n q i t k r j : Nat} (hmove : A.Move holds xs q i t k)
    (h : Route A holds xs n t k r j) : Route A holds xs (n + 1) q i r j

variable {A : Automaton π} {holds : π → α → Bool} {xs : List α} {q i t k r j n n' : Nat}

/-! ## Putting routes together -/

theorem Route.trans (h : A.Route holds xs n q i t k) (h' : A.Route holds xs n' t k r j) :
    A.Route holds xs (n + n') q i r j := by
  induction h with
  | done q i =>
    rw [Nat.zero_add]
    exact h'
  | step hmove _ ih =>
    rw [Nat.add_right_comm]
    exact .step hmove (ih h')

/-- Some route leads from one place to the other. -/
def Reaches (A : Automaton π) (holds : π → α → Bool) (xs : List α) (q i r j : Nat) : Prop :=
  ∃ n, A.Route holds xs n q i r j

theorem Reaches.refl (q i : Nat) : A.Reaches holds xs q i q i := ⟨0, .done q i⟩

theorem Reaches.trans (h : A.Reaches holds xs q i t k) (h' : A.Reaches holds xs t k r j) :
    A.Reaches holds xs q i r j := by
  obtain ⟨n, hn⟩ := h
  obtain ⟨n', hn'⟩ := h'
  exact ⟨n + n', hn.trans hn'⟩

theorem Move.reaches (h : A.Move holds xs q i t k) : A.Reaches holds xs q i t k :=
  ⟨1, .step h (.done t k)⟩

/-- A silent edge of a junction can be followed anywhere. -/
theorem move_junction {onward : List Nat} (hq : A.state? q = some (.junction onward))
    (ht : t ∈ onward) (i : Nat) : A.Move holds xs q i t i := .silent hq rfl ht

/-- The only silent edge of a junction. -/
theorem reaches_target (hq : A.state? q = some (.junction [t])) (i : Nat) :
    A.Reaches holds xs q i t i := (move_junction hq (List.mem_singleton.2 rfl) i).reaches

/-! ## Positions -/

theorem Move.le (h : A.Move holds xs q i t k) : i ≤ k := by
  cases h with
  | silent => exact Nat.le_refl i
  | reading => exact Nat.le_succ i

theorem Move.le_length (h : A.Move holds xs q i t k) (hi : i ≤ xs.length) : k ≤ xs.length := by
  cases h with
  | silent => exact hi
  | reading _ _ hx _ =>
    rw [List.getElem?_eq_some_iff] at hx
    exact hx.1

/-- An edge that moves the position is a reading edge. -/
theorem Move.exists_reading (h : A.Move holds xs q i t (i + 1)) :
    ∃ x state, xs[i]? = some x ∧ A.state? q = some state ∧
      Targets state.reading (Label.Meets holds x) t := by
  generalize hk : i + 1 = k at h
  cases h with
  | silent => omega
  | reading hq _ hx ht => exact ⟨_, _, hx, hq, ht⟩

theorem Route.le (h : A.Route holds xs n q i r j) : i ≤ j := by
  induction h with
  | done q i => exact Nat.le_refl i
  | step hmove _ ih => exact Nat.le_trans hmove.le ih

theorem Route.le_length (h : A.Route holds xs n q i r j) (hi : i ≤ xs.length) :
    j ≤ xs.length := by
  induction h with
  | done q i => exact hi
  | step hmove _ ih => exact ih (hmove.le_length hi)

/-! ## The last element of a route -/

/-- A silent way is a route that consumes nothing. -/
theorem Leads.reaches (h : A.Leads i (some xs.length) q r) : A.Reaches holds xs q i r i := by
  induction h with
  | here _ => exact .refl _ _
  | onward hq hopen ht _ ih => exact (Move.silent hq hopen ht).reaches.trans ih

/-- The last element of a route, which ends in a state that may be entered: before it the
route came to a state that reads the element, and behind it only silent edges follow. -/
structure LastRead (A : Automaton π) (holds : π → α → Bool) (xs : List α) (q i r j : Nat)
    (source target last : Nat) : Prop where
  position_eq : j = last + 1
  reaches : A.Reaches holds xs q i source last
  isOpen : A.Open last (some xs.length) source
  read : A.Move holds xs source last target (last + 1)
  leads : A.Leads j (some xs.length) target r

/-- **A route read from its end.** -/
theorem Route.last_read (h : A.Route holds xs n q i r j) (hopen : A.Open j (some xs.length) r) :
    (j = i ∧ A.Leads i (some xs.length) q r) ∨
      ∃ source target last, A.LastRead holds xs q i r j source target last := by
  induction h with
  | done q i => exact Or.inl ⟨rfl, .here hopen⟩
  | step hmove hrest ih =>
    rcases ih hopen with ⟨rfl, hleads⟩ | ⟨source, target, last, hlast⟩
    · -- The rest is silent, so the edge decides.
      cases hmove with
      | silent hq hadmits ht => exact Or.inl ⟨rfl, .onward hq hadmits ht hleads⟩
      | reading hq hadmits hx ht =>
        exact Or.inr ⟨_, _, _, rfl, .refl _ _, ⟨_, hq, hadmits⟩, .reading hq hadmits hx ht, hleads⟩
    · exact Or.inr ⟨source, target, last, hlast.position_eq, hmove.reaches.trans hlast.reaches,
        hlast.isOpen, hlast.read, hlast.leads⟩

/-- A route leads to a state, and that state may be entered. -/
def Arrives (A : Automaton π) (holds : π → α → Bool) (xs : List α) (q i r j : Nat) : Prop :=
  A.Reaches holds xs q i r j ∧ A.Open j (some xs.length) r

/-- Without consuming anything, one arrives where silent ways lead. -/
theorem arrives_self_iff : A.Arrives holds xs q i r i ↔ A.Leads i (some xs.length) q r := by
  constructor
  · rintro ⟨⟨n, hroute⟩, hopen⟩
    rcases hroute.last_read hopen with ⟨-, hleads⟩ | ⟨source, target, last, hlast⟩
    · exact hleads
    · obtain ⟨n', hn'⟩ := hlast.reaches
      have := hn'.le
      have := hlast.position_eq
      omega
  · intro hleads
    exact ⟨hleads.reaches, hleads.open_last⟩

/-- One arrives behind an element by reading it where one had arrived before, and then by
a silent way. -/
theorem arrives_succ_iff (hij : i ≤ j) :
    A.Arrives holds xs q i r (j + 1) ↔
      ∃ target,
        (∃ source, A.Arrives holds xs q i source j ∧ A.Move holds xs source j target (j + 1)) ∧
        A.Leads (j + 1) (some xs.length) target r := by
  constructor
  · rintro ⟨⟨n, hroute⟩, hopen⟩
    rcases hroute.last_read hopen with ⟨hsame, -⟩ | ⟨source, target, last, hlast⟩
    · omega
    · have hsame : last = j := (Nat.succ.inj hlast.position_eq).symm
      subst hsame
      exact ⟨target, ⟨source, ⟨hlast.reaches, hlast.isOpen⟩, hlast.read⟩, hlast.leads⟩
  · rintro ⟨target, ⟨source, ⟨hreaches, -⟩, hmove⟩, hleads⟩
    exact ⟨hreaches.trans (hmove.reaches.trans hleads.reaches), hleads.open_last⟩

/-- Reading an element is what a step of the automaton does. -/
theorem read_iff {active : List Nat} {x : α} (hx : xs[j]? = some x)
    (hactive : ∀ s, s ∈ active ↔ A.Arrives holds xs q i s j) :
    A.Read active (Label.Meets holds x) t ↔
      ∃ source, A.Arrives holds xs q i source j ∧ A.Move holds xs source j t (j + 1) := by
  constructor
  · rintro ⟨source, hsource, state, hstate, htargets⟩
    have harrives := (hactive source).1 hsource
    obtain ⟨state', hstate', hadmits⟩ := harrives.2
    rw [hstate] at hstate'
    cases hstate'
    exact ⟨source, harrives, .reading hstate hadmits hx htargets⟩
  · rintro ⟨source, harrives, hmove⟩
    obtain ⟨x', state, hx', hstate, htargets⟩ := hmove.exists_reading
    rw [hx] at hx'
    cases hx'
    exact ⟨source, (hactive source).2 harrives, state, hstate, htargets⟩

/-- A route that consumes an element passes every position in between. -/
theorem Arrives.exists_before (h : A.Arrives holds xs q i r j) (hik : i ≤ k) (hkj : k < j) :
    ∃ s, A.Arrives holds xs q i s k := by
  induction j generalizing r with
  | zero => cases hkj
  | succ j ih =>
    obtain ⟨⟨n, hroute⟩, hopen⟩ := h
    rcases hroute.last_read hopen with ⟨hj, -⟩ | ⟨source, target, last, hlast⟩
    · omega
    · have hposition := hlast.position_eq
      have harrives : A.Arrives holds xs q i source last := ⟨hlast.reaches, hlast.isOpen⟩
      have hsame : last = j := by omega
      subst hsame
      rcases Nat.eq_or_lt_of_le (Nat.le_of_lt_succ hkj) with rfl | hlt
      · exact ⟨source, harrives⟩
      · exact ih harrives hlt

end Automaton

end Motif
