/-
What a run does besides returning a value.

The predicates of a pattern are programs of their own: an evaluation may read and
change a memory that all predicates share, and it may panic. Two runs are told
apart by more than their results, namely by the evaluations they made, by the
memory they left and by what they wrote to the log. All of that is `Env`, and a
computation of this library is a function from one `Env` to the next that either
returns or is aborted (`Run`). What an aborted run did before stays done.

The library never looks into the memory. It hands it to `Predicates.test` and
keeps what comes back, so every law about runs holds for every behaviour of the
predicates.
-/
import Motif.Pattern.Text
import Motif.Fault

set_option autoImplicit false

namespace Motif

variable {π α μ ε β : Type}

/-! ## The log -/

/-- How important a record of the log is. -/
inductive Level where
  | debug
  | trace
  | warn
deriving DecidableEq, Repr

def Level.text : Level → String
  | debug => "DEBUG"
  | trace => "TRACE"
  | warn => "WARN"

/-- What the log records. -/
inductive Event (π : Type) where
  /-- A pattern was laid out with this many states. -/
  | compiled (pattern : Pattern π) (states : Nat)
  /-- A scanner is sure of the match from `first` to `last`. -/
  | emitting (first last : Nat)
  /-- A scanner starts a new attempt and has elements to catch up with. -/
  | restarting (start replayed : Nat)
  /-- An element was pushed into a scanner that has ended. -/
  | pushedAfterEnd
  /-- A scanner was ended twice. -/
  | endedTwice
deriving Repr

namespace Event

def level : Event π → Level
  | compiled _ _ => .debug
  | emitting _ _ => .trace
  | restarting _ _ => .trace
  | pushedAfterEnd => .warn
  | endedTwice => .warn

/-- The text of a record whose predicates are called what `name` says. -/
def message (name : π → String) : Event π → String
  | compiled pattern states =>
    "compiled " ++ pattern.text name ++ " into " ++ toString states ++ " states"
  | emitting first last => "emitting match at " ++ toString first ++ "..=" ++ toString last
  | restarting start replayed =>
    "restarting at " ++ toString start ++ ", replaying " ++ toString replayed ++ " elements"
  | pushedAfterEnd => "push called on a scanner that has already ended, ignoring it"
  | endedTwice => "end called twice on the same scanner, ignoring it"

/-- A record as one line of the log. -/
def line (name : π → String) (event : Event π) : String :=
  event.level.text ++ " " ++ event.message name

end Event

/-! ## Predicates and their surroundings -/

/-- What happens when the predicate behind a handle is evaluated on an element: an
answer or a panic, and what is in the memory afterwards. -/
structure Predicates (π α μ ε : Type) where
  test : π → α → μ → Except ε Bool × μ

/-- Predicates that do nothing but answer. -/
def Predicates.ofTest (holds : π → α → Bool) : Predicates π α μ ε where
  test handle x memory := (.ok (holds handle x), memory)

/-- What a run reads and changes: the memory of the predicates, the evaluations in
the order in which they were made, and the log. -/
structure Env (π α μ : Type) where
  memory : μ
  /-- The evaluations so far: which predicate, on which element. -/
  calls : Array (π × α) := #[]
  events : Array (Event π) := #[]

/-- Why a run was aborted. -/
inductive Abort (ε : Type) where
  /-- A predicate panicked. -/
  | panic (reason : ε)
  /-- A precondition did not hold. -/
  | fault (cause : Fault)
deriving DecidableEq, Repr

/-- A computation that evaluates predicates and writes to the log. -/
abbrev Run (π α μ ε β : Type) : Type := ExceptT (Abort ε) (StateM (Env π α μ)) β

namespace Run

/-- What the computation comes to if it is started in `env`. -/
def outcome (r : Run π α μ ε β) (env : Env π α μ) : Except (Abort ε) β × Env π α μ :=
  r.run.run env

/-- Evaluates a predicate. The evaluation is on the record before its outcome is
known, so one that panics is on it too. -/
def evaluate (P : Predicates π α μ ε) (handle : π) (x : α) : Run π α μ ε Bool :=
  ExceptT.mk fun ⟨memory, calls, events⟩ =>
    let (answer, memory) := P.test handle x memory
    (answer.mapError .panic, ⟨memory, calls.push (handle, x), events⟩)

def report (event : Event π) : Run π α μ ε Unit :=
  ExceptT.mk fun ⟨memory, calls, events⟩ => (.ok (), ⟨memory, calls, events.push event⟩)

def fail (cause : Fault) : Run π α μ ε β := throw (.fault cause)

/-- A checked computation as part of a run: its fault aborts the run. -/
def ofChecked : Except Fault β → Run π α μ ε β
  | .ok b => pure b
  | .error cause => fail cause

/-! ## What the parts of a run come to

These equations say everything about a run that a proof has to know. Returning and
failing leave the surroundings alone, and what follows an aborted part is never
started. -/

@[simp] theorem outcome_pure (b : β) (env : Env π α μ) :
    (pure b : Run π α μ ε β).outcome env = (.ok b, env) := rfl

@[simp] theorem outcome_fail (cause : Fault) (env : Env π α μ) :
    (fail cause : Run π α μ ε β).outcome env = (.error (.fault cause), env) := rfl

@[simp] theorem outcome_ofChecked_ok (b : β) (env : Env π α μ) :
    (ofChecked (.ok b) : Run π α μ ε β).outcome env = (.ok b, env) := rfl

@[simp] theorem outcome_ofChecked_error (cause : Fault) (env : Env π α μ) :
    (ofChecked (.error cause) : Run π α μ ε β).outcome env = (.error (.fault cause), env) := rfl

/-- What follows a part is started with what the part comes to. -/
theorem outcome_bind {γ : Type} (r : Run π α μ ε β) (next : β → Run π α μ ε γ)
    (env : Env π α μ) :
    (r >>= next).outcome env = (ExceptT.bindCont next (r.outcome env).1).run (r.outcome env).2 :=
  rfl

/-- A part that returns hands its result and its surroundings on. -/
theorem outcome_bind_of_ok {γ : Type} {r : Run π α μ ε β} {env env' : Env π α μ} {b : β}
    (h : r.outcome env = (.ok b, env')) (next : β → Run π α μ ε γ) :
    (r >>= next).outcome env = (next b).outcome env' :=
  (outcome_bind r next env).trans
    (congrArg (fun p => (ExceptT.bindCont next p.1).run p.2) h)

/-- A part that is aborted aborts the whole. -/
theorem outcome_bind_of_error {γ : Type} {r : Run π α μ ε β} {env env' : Env π α μ}
    {cause : Abort ε} (h : r.outcome env = (.error cause, env')) (next : β → Run π α μ ε γ) :
    (r >>= next).outcome env = (.error cause, env') :=
  (outcome_bind r next env).trans
    (congrArg (fun p => (ExceptT.bindCont next p.1).run p.2) h)

/-- An evaluation is recorded and has whatever effect the predicate has. -/
theorem outcome_evaluate (P : Predicates π α μ ε) (handle : π) (x : α) (env : Env π α μ) :
    (evaluate P handle x).outcome env =
      ((P.test handle x env.memory).1.mapError .panic,
        { env with
          memory := (P.test handle x env.memory).2
          calls := env.calls.push (handle, x) }) := rfl

end Run

end Motif
