/-
The two ways in which a pattern or its automaton cannot be built. Both are
refusals before any work is done: an alternation of nothing has no meaning that
a pattern could have, and a layout that would be larger than its budget is never
started.
-/

set_option autoImplicit false

namespace Motif

/-- Why a pattern, or the automaton of a pattern, was refused. -/
inductive BuildError where
  /-- An alternation was asked for with no alternatives at all. -/
  | emptyAlternation
  /-- The automaton would have more states than its budget allows. -/
  | tooManyStates
deriving DecidableEq, Repr

def BuildError.message : BuildError → String
  | emptyAlternation => "Alternation needs at least one alternative"
  | tooManyStates => "State overflow"

end Motif
