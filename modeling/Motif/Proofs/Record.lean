/-
The record of evaluations.

An evaluation is put on record when it is made, and nothing is ever taken off. A run
therefore only adds to the record (`Run.Grows`), and the record of a run that stops
early can be compared with the record of one that goes on.

That comparison is `Run.Precedes`. The first of two runs does what the second one does,
in the same order, up to the point at which it has its result; the second one may go on,
but nothing it does can change what the first one has found. If the first run is aborted
then so is the second one, in the same place. The judgement is closed under sequencing
behind parts that are alike, so two runs are compared part by part until the first one is
done.
-/
import Motif.Proofs.Attempt

set_option autoImplicit false

namespace Motif

variable {π α μ ε β γ δ : Type}

/-! ## Nothing is taken off the record -/

/-- The surroundings are the same, and the record begins with certain evaluations. -/
structure Env.Since (begun : List (π × α)) (env env' : Env π α μ) : Prop where
  eq : env = env'
  isPrefix : begun <+: env.calls.toList

theorem Predicates.respects_since (P : Predicates π α μ ε) (begun : List (π × α)) :
    P.Respects (Env.Since begun) := by
  rintro handle x env _ ⟨rfl, hbegun⟩
  refine ⟨rfl, rfl, ?_⟩
  rw [Run.outcome_evaluate, Array.toList_push]
  exact hbegun.trans (List.prefix_append _ _)

namespace Run

/-- Wherever the run is started, the record afterwards begins with the record before. -/
def Grows (r : Run π α μ ε β) : Prop :=
  ∀ env, env.calls.toList <+: (r.outcome env).2.calls.toList

/-- A run that does what its evaluations do only adds to the record. -/
theorem Grows.of_alike {r : Run π α μ ε β} (h : ∀ begun, r.Alike (Env.Since begun) r) :
    r.Grows := by
  intro env
  exact (h _ env env ⟨rfl, List.prefix_refl _⟩).2.isPrefix

theorem grows_pure (b : β) : (pure b : Run π α μ ε β).Grows := fun _ => List.prefix_refl _

theorem grows_ofChecked (c : Except Fault β) : (ofChecked c : Run π α μ ε β).Grows :=
  .of_alike fun _ => alike_ofChecked c

theorem grows_fail (cause : Fault) : (fail cause : Run π α μ ε β).Grows :=
  fun _ => List.prefix_refl _

theorem grows_report (event : Event π) : (report event : Run π α μ ε Unit).Grows :=
  fun _ => List.prefix_refl _

theorem Grows.bind {r : Run π α μ ε β} {next : β → Run π α μ ε γ} (h : r.Grows)
    (hnext : ∀ b, (next b).Grows) : (r >>= next).Grows := by
  intro env
  have henv := h env
  rcases hr : r.outcome env with ⟨result, env'⟩
  rw [hr] at henv
  cases result with
  | ok b =>
    rw [outcome_bind_of_ok hr]
    exact henv.trans (hnext b env')
  | error cause =>
    rw [outcome_bind_of_error hr]
    exact henv

/-! ## Runs that stop early -/

/-- Started in related surroundings, the first run makes evaluations with which those of
the second run begin, and its result fits whatever the second run returns. If the first
run is aborted, so is the second one, and they leave related surroundings. -/
def Precedes (R : Env π α μ → Env π α μ → Prop) (S : β → γ → Prop) (r : Run π α μ ε β)
    (r' : Run π α μ ε γ) : Prop :=
  ∀ env env', R env env' →
    match (r.outcome env).1 with
    | .ok b => (r.outcome env).2.calls.toList <+: (r'.outcome env').2.calls.toList ∧
        ∀ c, (r'.outcome env').1 = .ok c → S b c
    | .error cause => (r'.outcome env').1 = .error cause ∧
        R (r.outcome env).2 (r'.outcome env').2

section Precedes

variable {R : Env π α μ → Env π α μ → Prop} {S : β → γ → Prop}

/-- A run that is done precedes whatever the other one does that cannot change the
result. -/
theorem precedes_pure {b : β} {r' : Run π α μ ε γ}
    (hR : ∀ env env', R env env' → env.calls = env'.calls) (hgrows : r'.Grows)
    (hresult : r'.Returns (S b)) : (pure b : Run π α μ ε β).Precedes R S r' := by
  intro env env' henv
  refine ⟨?_, fun c hc => hresult env' c hc⟩
  rw [outcome_pure, hR env env' henv]
  exact hgrows env'

/-- First parts that are alike may be put in front. The rest only has to be compared for
what the first part can return. -/
theorem Alike.precedes_of_returns {Q : δ → Prop} {r r' : Run π α μ ε δ}
    {next : δ → Run π α μ ε β} {next' : δ → Run π α μ ε γ} (h : r.Alike R r')
    (hr : r.Returns Q) (hnext : ∀ d, Q d → (next d).Precedes R S (next' d)) :
    (r >>= next).Precedes R S (r' >>= next') := by
  intro env env' henv
  obtain ⟨hresult, hafter⟩ := h env env' henv
  have hQ := hr env
  rcases h₁ : r.outcome env with ⟨result, after⟩
  rcases h₂ : r'.outcome env' with ⟨result', after'⟩
  rw [h₁, h₂] at hresult hafter
  rw [h₁] at hQ
  dsimp only at hresult hafter hQ
  -- Both parts came to the same, so both go on or both are aborted.
  subst hresult
  cases result with
  | ok d =>
    rw [outcome_bind_of_ok h₁, outcome_bind_of_ok h₂]
    exact hnext d (hQ d rfl) after after' hafter
  | error cause =>
    rw [outcome_bind_of_error h₁, outcome_bind_of_error h₂]
    exact ⟨rfl, hafter⟩

theorem Alike.precedes {r r' : Run π α μ ε δ} {next : δ → Run π α μ ε β}
    {next' : δ → Run π α μ ε γ} (h : r.Alike R r')
    (hnext : ∀ d, (next d).Precedes R S (next' d)) :
    (r >>= next).Precedes R S (r' >>= next') :=
  h.precedes_of_returns (Q := fun _ => True) (fun _ _ _ => trivial) fun d _ => hnext d

variable {r : Run π α μ ε β} {r' : Run π α μ ε γ}

/-- In place of a run, one may compare a run that is alike. -/
theorem Precedes.of_alike {r₀ : Run π α μ ε β} (h : r₀.Precedes Env.SameButLog S r')
    (halike : r.Alike Env.SameButLog r₀) : r.Precedes Env.SameButLog S r' := by
  intro env env' henv
  obtain ⟨hresult, hafter⟩ := halike env env (Env.SameButLog.refl env)
  have hcompare := h env env' henv
  rw [← hresult] at hcompare
  split at hcompare
  · rw [hafter.calls]
    exact hcompare
  · exact ⟨hcompare.1, hafter.trans hcompare.2⟩

/-- If the second run returns, then so has the first one. -/
theorem Precedes.exists_ok {env : Env π α μ} {c : γ} (h : r.Precedes R S r') (hR : R env env)
    (hc : (r'.outcome env).1 = .ok c) : ∃ b, (r.outcome env).1 = .ok b ∧ S b c := by
  have hcompare := h env env hR
  split at hcompare
  · exact ⟨_, ‹_›, hcompare.2 c hc⟩
  · rw [hc] at hcompare
    cases hcompare.1

/-- The record of the second run begins with the record of the first one. -/
theorem Precedes.calls_prefix {env : Env π α μ} (h : r.Precedes R S r') (hR : R env env)
    (hcalls : ∀ env env', R env env' → env.calls = env'.calls) :
    (r.outcome env).2.calls.toList <+: (r'.outcome env).2.calls.toList := by
  have hcompare := h env env hR
  split at hcompare
  · exact hcompare.1
  · have hsame := hcalls _ _ hcompare.2
    exact ⟨[], by rw [List.append_nil, hsame]⟩

end Precedes

end Run

end Motif
