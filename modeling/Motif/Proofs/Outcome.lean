/-
Judgements about runs.

A run is a function of its surroundings, so a statement about it has to say for
which surroundings it is made. `Run.Ensures` is a statement for all of them: there
is no fault, a panic has an allowed reason, and a result has a property. The
allowed reasons are a parameter, because one proof then serves predicates that
panic (every reason is allowed) and predicates that do not (none is). Where only a
result matters, `Run.Returns` says less: whatever is returned has a property.

`Run.Alike` compares two runs that are started in related surroundings. With
surroundings that differ in the log only, it is the equality that a caller can
observe; with any two surroundings, it says that a run does not look at them. Both
uses need the same laws, and these are proved once for every relation.

`Run.Corresponds` compares runs that need not return the same kind of thing, such as
the states of two machines. Their surroundings are of no interest: the results
correspond, or both runs are aborted for the same reason.

All judgements are closed under sequencing. What is said of the parts of the
library in other modules is therefore said part by part, in the order of the code.
-/
import Motif.Run

set_option autoImplicit false

namespace Motif

variable {π α μ ε β γ : Type}

/-! ## What predicates may do -/

namespace Predicates

/-- Whatever the memory, an evaluation that panics has an allowed reason. -/
def PanicsOnly (P : Predicates π α μ ε) (may : ε → Prop) : Prop :=
  ∀ handle x memory reason, (P.test handle x memory).1 = .error reason → may reason

/-- No evaluation panics. An evaluation may still read and change the memory. -/
def NeverPanics (P : Predicates π α μ ε) : Prop := P.PanicsOnly fun _ => False

/-- Every evaluation answers, and the answer depends on the element alone. -/
def Answers (P : Predicates π α μ ε) (holds : π → α → Bool) : Prop :=
  ∀ handle x memory, (P.test handle x memory).1 = .ok (holds handle x)

/-- What comes of an evaluation, an answer or a panic, depends on the element alone. -/
def Steady (P : Predicates π α μ ε) : Prop :=
  ∀ handle x memory memory', (P.test handle x memory).1 = (P.test handle x memory').1

theorem panicsOnly_true (P : Predicates π α μ ε) : P.PanicsOnly fun _ => True := by
  intro handle x memory reason _
  trivial

theorem Answers.neverPanics {P : Predicates π α μ ε} {holds : π → α → Bool}
    (h : P.Answers holds) : P.NeverPanics := by
  intro handle x memory reason hreason
  rw [h handle x memory] at hreason
  cases hreason

theorem Answers.steady {P : Predicates π α μ ε} {holds : π → α → Bool} (h : P.Answers holds) :
    P.Steady := by
  intro handle x memory memory'
  rw [h, h]

theorem answers_ofTest (holds : π → α → Bool) :
    (ofTest holds : Predicates π α μ ε).Answers holds := fun _ _ _ => rfl

end Predicates

namespace Run

/-- What is made of the result alone adds nothing to a run. -/
theorem result_bind_pure {r : Run π α μ ε β} {env : Env π α μ} {b : β}
    (h : (r.outcome env).1 = .ok b) (f : β → γ) :
    ((r >>= fun b => pure (f b)).outcome env).1 = .ok (f b) := by
  rcases hr : r.outcome env with ⟨result, env'⟩
  rw [hr] at h
  dsimp only at h
  subst h
  rw [outcome_bind_of_ok hr]
  rfl

/-- A sequence that returns has returned part by part. -/
theorem exists_of_bind_eq_ok {r : Run π α μ ε β} {next : β → Run π α μ ε γ}
    {env after : Env π α μ} {c : γ} (h : (r >>= next).outcome env = (.ok c, after)) :
    ∃ b between, r.outcome env = (.ok b, between) ∧ (next b).outcome between = (.ok c, after) := by
  rcases hr : r.outcome env with ⟨result, between⟩
  cases result with
  | ok b =>
    rw [outcome_bind_of_ok hr] at h
    exact ⟨b, between, rfl, h⟩
  | error cause =>
    rw [outcome_bind_of_error hr] at h
    cases h

theorem ofChecked_ok_bind (b : β) (next : β → Run π α μ ε γ) :
    (ofChecked (.ok b) >>= next) = next b := pure_bind b next

/-! ## Promises for all surroundings -/

/-- Wherever the run is started, it raises no fault, panics only for allowed
reasons, and returns only what has the property `Q`. -/
def Ensures (may : ε → Prop) (r : Run π α μ ε β) (Q : β → Prop) : Prop :=
  ∀ env, match (r.outcome env).1 with
    | .ok b => Q b
    | .error (.panic reason) => may reason
    | .error (.fault _) => False

section Ensures

variable {may : ε → Prop} {Q Q' : β → Prop} {R : γ → Prop}

theorem ensures_pure {b : β} (h : Q b) : (pure b : Run π α μ ε β).Ensures may Q := fun _ => h

theorem ensures_ofChecked {c : Except Fault β} {b : β} (hc : c = .ok b) (h : Q b) :
    (ofChecked c : Run π α μ ε β).Ensures may Q := by
  subst hc
  exact ensures_pure h

theorem ensures_report {event : Event π} {Q : Unit → Prop} (h : Q ()) :
    (report event : Run π α μ ε Unit).Ensures may Q := fun _ => h

/-- An evaluation keeps a promise that all of its outcomes keep. -/
theorem ensures_evaluate {P : Predicates π α μ ε} {handle : π} {x : α} {Q : Bool → Prop}
    (hpanic : P.PanicsOnly may)
    (h : ∀ memory b, (P.test handle x memory).1 = .ok b → Q b) :
    (evaluate P handle x).Ensures may Q := by
  intro env
  rw [outcome_evaluate]
  cases htest : (P.test handle x env.memory).1 with
  | ok b => exact h env.memory b htest
  | error reason => exact hpanic handle x env.memory reason htest

theorem Ensures.mono {r : Run π α μ ε β} (h : r.Ensures may Q) (hQ : ∀ b, Q b → Q' b) :
    r.Ensures may Q' := by
  intro env
  have henv := h env
  split at henv
  · exact hQ _ henv
  · exact henv
  · exact henv

theorem Ensures.and {r : Run π α μ ε β} (h : r.Ensures may Q) (h' : r.Ensures may Q') :
    r.Ensures may fun b => Q b ∧ Q' b := by
  intro env
  have henv := h env
  have henv' := h' env
  split at henv <;> simp_all

/-- What follows a part only has to keep its promise for what the part returns. -/
theorem Ensures.bind {r : Run π α μ ε β} {next : β → Run π α μ ε γ} (h : r.Ensures may Q)
    (hnext : ∀ b, Q b → (next b).Ensures may R) : (r >>= next).Ensures may R := by
  intro env
  have henv := h env
  rcases hr : r.outcome env with ⟨result, env'⟩
  rw [hr] at henv
  cases result with
  | ok b =>
    -- The rest is started where the part ended, which may be anywhere.
    rw [outcome_bind_of_ok hr]
    exact hnext b henv env'
  | error cause =>
    rw [outcome_bind_of_error hr]
    cases cause with
    | panic reason => exact henv
    | fault cause => exact henv

/-- A promise without allowed panics is a result with the promised property. -/
theorem Ensures.exists_ok {r : Run π α μ ε β} (h : r.Ensures (fun _ => False) Q)
    (env : Env π α μ) : ∃ b, (r.outcome env).1 = .ok b ∧ Q b := by
  have henv := h env
  split at henv
  · exact ⟨_, ‹_›, henv⟩
  · exact henv.elim
  · exact henv.elim

theorem Ensures.exists_outcome {r : Run π α μ ε β} (h : r.Ensures (fun _ => False) Q)
    (env : Env π α μ) : ∃ b after, r.outcome env = (.ok b, after) ∧ Q b := by
  obtain ⟨b, hb, hQ⟩ := h.exists_ok env
  exact ⟨b, _, Prod.ext hb rfl, hQ⟩

/-- With a promise, a run either returns or is aborted by a panic. -/
theorem Ensures.ok_or_panic {r : Run π α μ ε β} (h : r.Ensures may Q) (env : Env π α μ) :
    (∃ b, (r.outcome env).1 = .ok b ∧ Q b) ∨
      ∃ reason, (r.outcome env).1 = .error (.panic reason) ∧ may reason := by
  have henv := h env
  split at henv
  · exact Or.inl ⟨_, ‹_›, henv⟩
  · exact Or.inr ⟨_, ‹_›, henv⟩
  · exact henv.elim

end Ensures

/-! ## What is returned if anything is -/

/-- Whatever the run returns has the property `Q`. The run may be aborted. -/
def Returns (r : Run π α μ ε β) (Q : β → Prop) : Prop :=
  ∀ env b, (r.outcome env).1 = .ok b → Q b

theorem returns_pure {Q : β → Prop} {b : β} (h : Q b) : (pure b : Run π α μ ε β).Returns Q := by
  intro env b' hb'
  cases hb'
  exact h

theorem returns_fail {Q : β → Prop} (cause : Fault) :
    (fail cause : Run π α μ ε β).Returns Q := by
  intro env b hb
  cases hb

theorem Ensures.returns {may : ε → Prop} {r : Run π α μ ε β} {Q : β → Prop}
    (h : r.Ensures may Q) : r.Returns Q := by
  intro env b hb
  have henv := h env
  rw [hb] at henv
  exact henv

theorem returns_ofChecked {Q : β → Prop} {c : Except Fault β} (h : ∀ b, c = .ok b → Q b) :
    (ofChecked c : Run π α μ ε β).Returns Q := by
  intro env b hb
  cases c with
  | ok b' =>
    cases hb
    exact h b rfl
  | error cause => cases hb

/-- What follows a part only has to return what it should for what the part returns. -/
theorem Returns.bind {Q : β → Prop} {Q' : γ → Prop} {r : Run π α μ ε β}
    {next : β → Run π α μ ε γ} (h : r.Returns Q) (hnext : ∀ b, Q b → (next b).Returns Q') :
    (r >>= next).Returns Q' := by
  intro env c hc
  obtain ⟨b, between, hr, hrest⟩ := exists_of_bind_eq_ok (Prod.ext hc rfl)
  exact hnext b (h env b (congrArg Prod.fst hr)) between c (congrArg Prod.fst hrest)

/-- What a run returns is what its last part returns. -/
theorem returns_bind {Q : γ → Prop} {r : Run π α μ ε β} {next : β → Run π α μ ε γ}
    (hnext : ∀ b, (next b).Returns Q) : (r >>= next).Returns Q :=
  Returns.bind (Q := fun _ => True) (fun _ _ _ => trivial) fun b _ => hnext b

/-- What follows a part may be replaced by what does the same for all that the part
returns. -/
theorem Returns.bind_congr {Q : β → Prop} {r : Run π α μ ε β} {next next' : β → Run π α μ ε γ}
    (h : r.Returns Q) (hnext : ∀ b, Q b → next b = next' b) : r >>= next = r >>= next' := by
  funext env
  change (r >>= next).outcome env = (r >>= next').outcome env
  rcases hr : r.outcome env with ⟨result, between⟩
  cases result with
  | ok b =>
    rw [outcome_bind_of_ok hr, outcome_bind_of_ok hr, hnext b (h env b (congrArg Prod.fst hr))]
  | error cause => rw [outcome_bind_of_error hr, outcome_bind_of_error hr]

/-- A check that is made of another one is made by making the other one. -/
theorem ofChecked_map (f : β → γ) (c : Except Fault β) :
    (ofChecked (c.map f) : Run π α μ ε γ) = ofChecked c >>= fun b => pure (f b) := by
  cases c <;> rfl

theorem Ensures.and_returns {may : ε → Prop} {r : Run π α μ ε β} {Q Q' : β → Prop}
    (h : r.Ensures may Q) (h' : r.Returns Q') : r.Ensures may fun b => Q b ∧ Q' b := by
  intro env
  have henv := h env
  split at henv
  · exact ⟨henv, h' env _ ‹_›⟩
  · exact henv
  · exact henv

/-! ## Runs in related surroundings -/

/-- Started in related surroundings, both runs come to the same result and leave
related surroundings. -/
def Alike (R : Env π α μ → Env π α μ → Prop) (r r' : Run π α μ ε β) : Prop :=
  ∀ env env', R env env' →
    (r.outcome env).1 = (r'.outcome env').1 ∧ R (r.outcome env).2 (r'.outcome env').2

section Alike

variable {R : Env π α μ → Env π α μ → Prop}

/-- Started in the same surroundings, a run does what it does. -/
theorem alike_eq (r : Run π α μ ε β) : r.Alike Eq r := by
  rintro env _ rfl
  exact ⟨rfl, rfl⟩

theorem alike_pure (b : β) : (pure b : Run π α μ ε β).Alike R (pure b) := by
  intro env env' h
  exact ⟨rfl, h⟩

theorem alike_ofChecked (c : Except Fault β) :
    (ofChecked c : Run π α μ ε β).Alike R (ofChecked c) := by
  cases c with
  | ok b => exact alike_pure b
  | error cause => exact fun _ _ h => ⟨rfl, h⟩

theorem alike_fail (cause : Fault) : (fail cause : Run π α μ ε β).Alike R (fail cause) :=
  fun _ _ h => ⟨rfl, h⟩

/-- The second parts only have to be alike for what the first part can return. -/
theorem Alike.bind_of_returns {Q : β → Prop} {r r' : Run π α μ ε β}
    {next next' : β → Run π α μ ε γ} (h : r.Alike R r') (hr : r.Returns Q)
    (hnext : ∀ b, Q b → (next b).Alike R (next' b)) :
    (r >>= next).Alike R (r' >>= next') := by
  intro env env' henv
  obtain ⟨hresult, hafter⟩ := h env env' henv
  have hQ := hr env
  rcases h₁ : r.outcome env with ⟨result, after⟩
  rcases h₂ : r'.outcome env' with ⟨result', after'⟩
  rw [h₁, h₂] at hresult hafter
  rw [h₁] at hQ
  dsimp only at hresult hafter hQ
  -- Both parts came to the same, so both go on in the same way or are both aborted.
  subst hresult
  cases result with
  | ok b =>
    rw [outcome_bind_of_ok h₁, outcome_bind_of_ok h₂]
    exact hnext b (hQ b rfl) after after' hafter
  | error cause =>
    rw [outcome_bind_of_error h₁, outcome_bind_of_error h₂]
    exact ⟨rfl, hafter⟩

theorem Alike.bind_of_ensures {may : ε → Prop} {Q : β → Prop} {r r' : Run π α μ ε β}
    {next next' : β → Run π α μ ε γ} (h : r.Alike R r') (hr : r.Ensures may Q)
    (hnext : ∀ b, Q b → (next b).Alike R (next' b)) :
    (r >>= next).Alike R (r' >>= next') := h.bind_of_returns hr.returns hnext

theorem Alike.bind {r r' : Run π α μ ε β} {next next' : β → Run π α μ ε γ} (h : r.Alike R r')
    (hnext : ∀ b, (next b).Alike R (next' b)) : (r >>= next).Alike R (r' >>= next') :=
  h.bind_of_returns (Q := fun _ => True) (fun _ _ _ => trivial) fun b _ => hnext b

end Alike

/-! ## Runs with corresponding results -/

/-- Wherever the runs are started, their results correspond, or both are aborted for the
same reason. -/
def Corresponds (S : β → γ → Prop) (r : Run π α μ ε β) (r' : Run π α μ ε γ) : Prop :=
  ∀ env env', match (r.outcome env).1, (r'.outcome env').1 with
    | .ok b, .ok c => S b c
    | .error cause, .error cause' => cause = cause'
    | _, _ => False

section Corresponds

variable {S : β → γ → Prop} {r : Run π α μ ε β} {r' : Run π α μ ε γ}

theorem corresponds_pure {b : β} {c : γ} (h : S b c) :
    (pure b : Run π α μ ε β).Corresponds S (pure c) := fun _ _ => h

theorem corresponds_fail (cause : Fault) :
    (fail cause : Run π α μ ε β).Corresponds S (fail cause) := fun _ _ => rfl

/-- A check that both runs make has the same result. -/
theorem corresponds_ofChecked (c : Except Fault β) :
    (ofChecked c : Run π α μ ε β).Corresponds Eq (ofChecked c) := by
  cases c with
  | ok b => exact corresponds_pure rfl
  | error cause => exact corresponds_fail cause

theorem corresponds_report (event : Event π) :
    (report event : Run π α μ ε Unit).Corresponds (fun _ _ => True) (report event) :=
  fun _ _ => trivial

/-- The second parts only have to correspond for results of the first parts that do. -/
theorem Corresponds.bind {δ ζ : Type} {T : δ → ζ → Prop} {next : β → Run π α μ ε δ}
    {next' : γ → Run π α μ ε ζ} (h : r.Corresponds S r')
    (hnext : ∀ b c, S b c → (next b).Corresponds T (next' c)) :
    (r >>= next).Corresponds T (r' >>= next') := by
  intro env env'
  have hresults := h env env'
  rcases hr : r.outcome env with ⟨result, after⟩
  rcases hr' : r'.outcome env' with ⟨result', after'⟩
  rw [hr, hr'] at hresults
  cases result with
  | ok b =>
    cases result' with
    | ok c =>
      rw [outcome_bind_of_ok hr, outcome_bind_of_ok hr']
      exact hnext b c hresults after after'
    | error cause => exact hresults.elim
  | error cause =>
    cases result' with
    | ok c => exact hresults.elim
    | error cause' =>
      rw [outcome_bind_of_error hr, outcome_bind_of_error hr']
      exact hresults

/-- Runs that always return correspond in whatever is promised of them. -/
theorem Ensures.corresponds {Q : β → Prop} {Q' : γ → Prop} (h : r.Ensures (fun _ => False) Q)
    (h' : r'.Ensures (fun _ => False) Q') : r.Corresponds (fun b c => Q b ∧ Q' c) r' := by
  intro env env'
  obtain ⟨b, hb, hQ⟩ := h.exists_ok env
  obtain ⟨c, hc, hQ'⟩ := h'.exists_ok env'
  rw [hb, hc]
  exact ⟨hQ, hQ'⟩

/-- Where corresponding means equal, the runs come to the same. -/
theorem Corresponds.result_eq {r' : Run π α μ ε β} (h : r.Corresponds Eq r')
    (env env' : Env π α μ) : (r.outcome env).1 = (r'.outcome env').1 := by
  have hresults := h env env'
  split at hresults
  · rename_i hb hc
    rw [hb, hc, hresults]
  · rename_i hb hc
    rw [hb, hc, hresults]
  · exact hresults.elim

end Corresponds

end Run

/-! ## Two relations between surroundings -/

/-- The surroundings differ in their logs at most. -/
structure Env.SameButLog (env env' : Env π α μ) : Prop where
  memory : env.memory = env'.memory
  calls : env.calls = env'.calls

theorem Env.SameButLog.refl (env : Env π α μ) : env.SameButLog env := ⟨rfl, rfl⟩

theorem Env.SameButLog.symm {env env' : Env π α μ} (h : env.SameButLog env') :
    env'.SameButLog env := ⟨h.memory.symm, h.calls.symm⟩

theorem Env.SameButLog.trans {env env' env'' : Env π α μ} (h : env.SameButLog env')
    (h' : env'.SameButLog env'') : env.SameButLog env'' :=
  ⟨h.memory.trans h'.memory, h.calls.trans h'.calls⟩

namespace Run

/-- Runs that are alike but for the log may be chained. -/
theorem Alike.trans {r r' r'' : Run π α μ ε β} (h : r.Alike Env.SameButLog r')
    (h' : r'.Alike Env.SameButLog r'') : r.Alike Env.SameButLog r'' := by
  intro env env' henv
  obtain ⟨hresult, hafter⟩ := h env env' henv
  obtain ⟨hresult', hafter'⟩ := h' env' env' (Env.SameButLog.refl env')
  exact ⟨hresult.trans hresult', hafter.memory.trans hafter'.memory,
    hafter.calls.trans hafter'.calls⟩

theorem Alike.symm {r r' : Run π α μ ε β} (h : r.Alike Env.SameButLog r') :
    r'.Alike Env.SameButLog r := by
  intro env env' henv
  obtain ⟨hresult, hafter⟩ := h env' env henv.symm
  exact ⟨hresult.symm, hafter.symm⟩

/-- No evaluation looks at the log. -/
theorem alike_evaluate_sameButLog (P : Predicates π α μ ε) (handle : π) (x : α) :
    (evaluate P handle x).Alike Env.SameButLog (evaluate P handle x) := by
  intro env env' h
  rw [outcome_evaluate, outcome_evaluate, h.memory, h.calls]
  exact ⟨rfl, rfl, rfl⟩

/-- Whoever does not read the log cannot tell whether a record was written. -/
theorem alike_report_pure (event : Event π) :
    (report event : Run π α μ ε Unit).Alike Env.SameButLog (pure ()) := by
  intro env env' h
  exact ⟨rfl, h.memory, h.calls⟩

/-- The run comes to the same result wherever it is started. -/
def Steady (r : Run π α μ ε β) : Prop := r.Alike (fun _ _ => True) r

theorem Steady.outcome_eq {r : Run π α μ ε β} (h : r.Steady) (env env' : Env π α μ) :
    (r.outcome env).1 = (r.outcome env').1 := (h env env' trivial).1

theorem steady_evaluate {P : Predicates π α μ ε} (h : P.Steady) (handle : π) (x : α) :
    (evaluate P handle x).Steady := by
  intro env env' _
  rw [outcome_evaluate, outcome_evaluate, h handle x env.memory env'.memory]
  exact ⟨rfl, trivial⟩

/-- The run returns the result wherever it is started. -/
def Gives (r : Run π α μ ε β) (b : β) : Prop := ∀ env, (r.outcome env).1 = .ok b

theorem Gives.bind {r : Run π α μ ε β} {next : β → Run π α μ ε γ} {b : β} {c : γ}
    (h : r.Gives b) (hnext : (next b).Gives c) : (r >>= next).Gives c := by
  intro env
  rcases hr : r.outcome env with ⟨result, env'⟩
  have hresult := h env
  rw [hr] at hresult
  dsimp only at hresult
  subst hresult
  rw [outcome_bind_of_ok hr]
  exact hnext env'

/-- What a steady run returns once it gives everywhere. -/
theorem Ensures.and_gives {may : ε → Prop} {r : Run π α μ ε β} {Q : β → Prop} {C : Prop}
    (h : r.Ensures may Q) (hr : C → r.Steady) :
    r.Ensures may fun b => Q b ∧ (C → r.Gives b) := by
  intro env
  have henv := h env
  split at henv
  · rename_i b hb
    refine ⟨henv, ?_⟩
    intro hC env'
    -- The result here is the result there, because the run does not look around.
    rw [(hr hC).outcome_eq env' env]
    exact hb
  · exact henv
  · exact henv

/-- A promise of one run is a promise of every run that is alike. -/
theorem Ensures.of_alike {may : ε → Prop} {R : Env π α μ → Env π α μ → Prop}
    {r r' : Run π α μ ε β} {Q : β → Prop} (h : r'.Ensures may Q) (halike : r.Alike R r')
    (hR : ∀ env, R env env) : r.Ensures may Q := by
  intro env
  rw [(halike env env (hR env)).1]
  exact h env

end Run

end Motif
