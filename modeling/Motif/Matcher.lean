/-
Matchers: patterns that are ready to be run.

Whether long or short matches are preferred is decided once for a whole pattern.
If any repetition in it is lazy, all matching is.
-/
import Motif.Automaton.Layout
import Motif.Automaton.Text
import Motif.Run

set_option autoImplicit false

namespace Motif

/-- An automaton together with the preference for long or short matches. -/
structure Matcher (π : Type) where
  automaton : Automaton π
  /-- Are longer matches preferred? -/
  greedy : Bool
deriving DecidableEq, Repr, Inhabited

namespace Matcher

variable {π α μ ε : Type}

/-- The matcher of a pattern. -/
def ofPattern (p : Pattern π) : Matcher π := ⟨.ofPattern p, p.isGreedy⟩

/-- Compiles a pattern, with a record in the log. -/
def compile (p : Pattern π) : Run π α μ ε (Matcher π) := do
  let automaton ← Run.ofChecked (Automaton.compile p)
  Run.report (.compiled p automaton.size)
  return ⟨automaton, p.isGreedy⟩

/-- Compiles a pattern if its automaton has at most `budget` states. Only a layout that
was made is recorded in the log. -/
def compileWithin (budget : Nat) (p : Pattern π) :
    Run π α μ ε (Except BuildError (Matcher π)) := do
  match ← Run.ofChecked (Automaton.compileWithin budget p) with
  | .ok automaton =>
    Run.report (.compiled p automaton.size)
    return .ok ⟨automaton, p.isGreedy⟩
  | .error e => return .error e

/-- The text of a matcher whose predicates are called what `name` says. -/
def text (name : π → String) (m : Matcher π) : String :=
  "Matcher (greedy: " ++ toString m.greedy ++ ") " ++ m.automaton.text name

end Matcher

end Motif
