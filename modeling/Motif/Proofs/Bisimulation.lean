/-
Automata that do the same.

Two automata need not be equal to behave in the same way. It is enough that their states
correspond so that states that correspond have the same anchor, and whatever edge one of
them has leads to where an edge of the other one leads (`Bisimulation`). Which edge comes
first plays no part in that, and neither do the numbers of the states.

Sets of states that correspond in both directions (`Matched`) stay so through a closure
and through a step. The order of the states is lost on the way. What an attempt looks at
is not: whether a set is empty, whether the accepting state is in it, and whether
something is undecided.
-/
import Motif.Proofs.Deferral
import Motif.Proofs.Step

set_option autoImplicit false

namespace Motif

variable {π α μ ε : Type}

namespace Automaton

/-- The second state has the anchor of the first one, and whatever edge the first one has
leads to where an edge of the second one leads. -/
def Mimics (R : Nat → Nat → Prop) (A A' : Automaton π) (s s' : Nat) : Prop :=
  ∃ state state', A.state? s = some state ∧ A'.state? s' = some state' ∧
    state.anchor = state'.anchor ∧
    (∀ t ∈ state.silent, ∃ t' ∈ state'.silent, R t t') ∧
    ∀ label t, (label, t) ∈ state.reading → ∃ t', (label, t') ∈ state'.reading ∧ R t t'

/-- Each state of the first list has its counterpart in the second. -/
def Covered (R : Nat → Nat → Prop) (xs ys : List Nat) : Prop := ∀ x ∈ xs, ∃ y ∈ ys, R x y

/-- States that correspond can do the same, and only the accepting states correspond to
each other. -/
structure Bisimulation (R : Nat → Nat → Prop) (A A' : Automaton π) : Prop where
  start : R A.start A'.start
  forth : ∀ s s', R s s' → Mimics R A A' s s'
  back : ∀ s s', R s s' → Mimics (flip R) A' A s' s
  accept_iff : ∀ s s', R s s' → (s = A.accept ↔ s' = A'.accept)

/-- Junctions do the same if they lead to the same. -/
theorem mimics_junction {R : Nat → Nat → Prop} {A A' : Automaton π} {s s' : Nat}
    {onward onward' : List Nat} (hs : A.state? s = some (.junction onward))
    (hs' : A'.state? s' = some (.junction onward')) (h : Covered R onward onward') :
    Mimics R A A' s s' :=
  ⟨_, _, hs, hs', rfl, h, fun _ _ hedge => absurd hedge List.not_mem_nil⟩

/-- States that consume one element do the same if they read the same label. -/
theorem mimics_reader {R : Nat → Nat → Prop} {A A' : Automaton π} {s s' target target' : Nat}
    {label : Label π} (hs : A.state? s = some (.reader label target))
    (hs' : A'.state? s' = some (.reader label target')) (h : R target target') :
    Mimics R A A' s s' := by
  refine ⟨_, _, hs, hs', rfl, fun t ht => absurd ht List.not_mem_nil, fun label₁ t hedge => ?_⟩
  cases List.mem_singleton.1 hedge
  exact ⟨target', List.mem_singleton_self _, h⟩

/-- Gates do the same if they have the same anchor. -/
theorem mimics_gate {R : Nat → Nat → Prop} {A A' : Automaton π} {s s' target target' : Nat}
    {condition : Anchor} (hs : A.state? s = some (.gate condition target))
    (hs' : A'.state? s' = some (.gate condition target')) (h : R target target') :
    Mimics R A A' s s' := by
  refine ⟨_, _, hs, hs', rfl, fun t ht => ?_, fun _ _ hedge => absurd hedge List.not_mem_nil⟩
  rw [List.mem_singleton.1 ht]
  exact ⟨target', List.mem_singleton_self _, h⟩

/-- The lists have the same states but for the correspondence, in whatever order. -/
def Matched (R : Nat → Nat → Prop) (xs ys : List Nat) : Prop :=
  Covered R xs ys ∧ Covered (flip R) ys xs

theorem Matched.eq_nil_iff {R : Nat → Nat → Prop} {xs ys : List Nat} (h : Matched R xs ys) :
    xs = [] ↔ ys = [] := by
  constructor
  · rintro rfl
    refine List.eq_nil_iff_forall_not_mem.2 fun y hy => ?_
    obtain ⟨x, hx, -⟩ := h.2 y hy
    cases hx
  · rintro rfl
    refine List.eq_nil_iff_forall_not_mem.2 fun x hx => ?_
    obtain ⟨y, hy, -⟩ := h.1 x hx
    cases hy

namespace Bisimulation

variable {R : Nat → Nat → Prop} {A A' : Automaton π} {xs ys : List Nat} {index : Nat}
  {length : Option Nat}

theorem symm (h : Bisimulation R A A') : Bisimulation (flip R) A' A :=
  ⟨h.start, fun s' s hs => h.back s s' hs, fun s' s hs => h.forth s s' hs,
    fun s' s hs => (h.accept_iff s s' hs).symm⟩

/-- Whatever corresponds to something is a state. -/
theorem lt_size (h : Bisimulation R A A') (hcovered : Covered R xs ys) : ∀ x ∈ xs, x < A.size := by
  intro x hx
  obtain ⟨y, -, hxy⟩ := hcovered x hx
  obtain ⟨state, -, hstate, -⟩ := h.forth x y hxy
  exact lt_size_of_state? hstate

theorem accept_mem_iff (h : Bisimulation R A A') (hmatched : Matched R xs ys) :
    A.accept ∈ xs ↔ A'.accept ∈ ys := by
  constructor
  · intro hx
    obtain ⟨y, hy, hxy⟩ := hmatched.1 _ hx
    rw [← (h.accept_iff _ y hxy).1 rfl]
    exact hy
  · intro hy
    obtain ⟨x, hx, hxy⟩ := hmatched.2 _ hy
    rw [← (h.accept_iff x _ hxy).2 rfl]
    exact hx

/-! ## Closures -/

/-- A silent way leads to where a silent way of the other automaton leads. -/
theorem exists_leads (h : Bisimulation R A A') {s r : Nat} (hleads : A.Leads index length s r)
    {s' : Nat} (hs : R s s') : ∃ r', R r r' ∧ A'.Leads index length s' r' := by
  induction hleads generalizing s' with
  | here hopen =>
    obtain ⟨state, state', hstate, hstate', hanchor, -⟩ := h.forth _ s' hs
    obtain ⟨_, hstate₁, hadmits⟩ := hopen
    rw [hstate] at hstate₁
    cases hstate₁
    exact ⟨s', hs, .here ⟨state', hstate', by rw [State.admits, ← hanchor]; exact hadmits⟩⟩
  | onward hq hadmits ht _ ih =>
    obtain ⟨state, state', hstate, hstate', hanchor, hsilent, -⟩ := h.forth _ s' hs
    rw [hstate] at hq
    cases hq
    obtain ⟨t', ht', htt'⟩ := hsilent _ ht
    obtain ⟨r', hr', hleads'⟩ := ih htt'
    exact ⟨r', hr', .onward hstate' (by rw [State.admits, ← hanchor]; exact hadmits) ht' hleads'⟩

section Closure

variable {seeds seeds' : List Nat} {c c' : Closure}

theorem covered_closure (h : Bisimulation R A A') (hseeds : Covered R seeds seeds')
    (hc : A.closure seeds index length = .ok c) (hc' : A'.closure seeds' index length = .ok c') :
    Covered R c.states.toList c'.states.toList := by
  intro r hr
  obtain ⟨s, hs, hleads⟩ := (mem_closure_iff hc).1 hr
  obtain ⟨s', hs', hss'⟩ := hseeds s hs
  obtain ⟨r', hrr', hleads'⟩ := h.exists_leads hleads hss'
  exact ⟨r', (mem_closure_iff hc').2 ⟨s', hs', hleads'⟩, hrr'⟩

/-- **Closures of corresponding seeds correspond.** -/
theorem matched_closure (h : Bisimulation R A A') (hseeds : Matched R seeds seeds')
    (hc : A.closure seeds index length = .ok c) (hc' : A'.closure seeds' index length = .ok c') :
    Matched R c.states.toList c'.states.toList :=
  ⟨h.covered_closure hseeds.1 hc hc', h.symm.covered_closure hseeds.2 hc' hc⟩

theorem awaits (h : Bisimulation R A A') {t t' : Nat} (ht : R t t')
    (hawaits : A.Awaits length t) : A'.Awaits length t' := by
  obtain ⟨state, state', hstate, hstate', hanchor, -⟩ := h.forth t t' ht
  obtain ⟨_, hstate₁, hawaits⟩ := hawaits
  rw [hstate] at hstate₁
  cases hstate₁
  exact ⟨state', hstate', by rw [State.awaitsLength, ← hanchor]; exact hawaits⟩

theorem exists_edge (h : Bisimulation R A A') {s s' t : Nat} (hs : R s s') (ht : A.Edge s t) :
    ∃ t', R t t' ∧ A'.Edge s' t' := by
  obtain ⟨state, state', hstate, hstate', -, hsilent, -⟩ := h.forth s s' hs
  obtain ⟨_, hstate₁, ht⟩ := ht
  rw [hstate] at hstate₁
  cases hstate₁
  obtain ⟨t', ht', htt'⟩ := hsilent t ht
  exact ⟨t', htt', state', hstate', ht'⟩

theorem deferred_of_deferred (h : Bisimulation R A A') (hseeds : Covered R seeds seeds')
    (hc : A.closure seeds index length = .ok c) (hc' : A'.closure seeds' index length = .ok c')
    (hmark : c.deferred = true) : c'.deferred = true := by
  obtain ⟨t, hawaits, ht⟩ := (deferred_closure_iff hc).1 hmark
  rw [deferred_closure_iff hc']
  rcases ht with ht | ⟨q, hq, hedge⟩
  · obtain ⟨t', ht', htt'⟩ := hseeds t ht
    exact ⟨t', h.awaits htt' hawaits, Or.inl ht'⟩
  · obtain ⟨q', hq', hqq'⟩ := h.covered_closure hseeds hc hc' q hq
    obtain ⟨t', htt', hedge'⟩ := h.exists_edge hqq' hedge
    exact ⟨t', h.awaits htt' hawaits, Or.inr ⟨q', hq', hedge'⟩⟩

/-- Corresponding seeds leave the same undecided. -/
theorem deferred_eq (h : Bisimulation R A A') (hseeds : Matched R seeds seeds')
    (hc : A.closure seeds index length = .ok c) (hc' : A'.closure seeds' index length = .ok c') :
    c.deferred = c'.deferred :=
  Bool.eq_iff_iff.2
    ⟨h.deferred_of_deferred hseeds.1 hc hc', h.symm.deferred_of_deferred hseeds.2 hc' hc⟩

end Closure

/-! ## Steps -/

theorem covered_read (h : Bisimulation R A A') (hactive : Covered R xs ys) {T : Label π → Prop}
    {t : Nat} (hread : A.Read xs T t) : ∃ t', R t t' ∧ A'.Read ys T t' := by
  obtain ⟨q, hq, state, hstate, ⟨label, _⟩, hedge, rfl, hT⟩ := hread
  obtain ⟨q', hq', hqq'⟩ := hactive q hq
  obtain ⟨_, state', hstate₁, hstate', -, -, hreading⟩ := h.forth q q' hqq'
  rw [hstate] at hstate₁
  cases hstate₁
  obtain ⟨t', hedge', htt'⟩ := hreading label _ hedge
  exact ⟨t', htt', q', hq', state', hstate', _, hedge', rfl, hT⟩

/-- **Corresponding states read to corresponding states,** as long as the answers depend
on the element alone. -/
theorem matched_seeds (h : Bisimulation R A A') (hactive : Matched R xs ys) {T : Label π → Prop}
    {seeds seeds' : List Nat} (hseeds : ∀ t, t ∈ seeds ↔ A.Read xs T t)
    (hseeds' : ∀ t, t ∈ seeds' ↔ A'.Read ys T t) : Matched R seeds seeds' := by
  constructor
  · intro t ht
    obtain ⟨t', htt', hread⟩ := h.covered_read hactive.1 ((hseeds t).1 ht)
    exact ⟨t', (hseeds' t').2 hread, htt'⟩
  · intro t' ht'
    obtain ⟨t, htt', hread⟩ := h.symm.covered_read hactive.2 ((hseeds' t').1 ht')
    exact ⟨t, (hseeds t).2 hread, htt'⟩

end Bisimulation

end Automaton

end Motif
