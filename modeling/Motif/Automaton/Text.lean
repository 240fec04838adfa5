/-
The text of an automaton: a line with its measures, then its states one after
another with their edges. Automata get long, so only the first states are written
out and the others are counted.
-/
import Motif.Automaton.Basic

set_option autoImplicit false

namespace Motif

variable {π : Type}

/-- The text of a label whose predicate is called what `name` says. -/
def Label.text (name : π → String) : Label π → String
  | .any => "Any"
  | .predicate handle => name handle

namespace State

/-- The sign of an anchored state. -/
def anchorText : Option Anchor → String
  | some condition => " (" ++ condition.text ++ ")"
  | none => ""

/-- The line of the silent edges, if there are any. -/
def silentText (targets : List Nat) : String :=
  if targets.isEmpty then ""
  else "\t\tEps: " ++ ", ".intercalate (targets.map toString) ++ "\n"

/-- The line of a reading edge. -/
def edgeText (name : π → String) (edge : Label π × Nat) : String :=
  "\t\t" ++ edge.1.text name ++ " => " ++ toString edge.2 ++ "\n"

/-- The lines of the state of number `q`. -/
def text (name : π → String) (q : Nat) (state : State π) : String :=
  "\tState " ++ toString q ++ anchorText state.anchor ++ ":\n" ++ silentText state.silent ++
    String.join (state.reading.map (edgeText name))

end State

namespace Automaton

/-- How many states the text of an automaton writes out. -/
def shownStates : Nat := 40

/-- The text of an automaton whose predicates are called what `name` says. -/
def text (name : π → String) (A : Automaton π) : String :=
  let header := "Nfa (" ++ toString A.size ++ " states, start " ++ toString A.start ++
    ", accept " ++ toString A.accept ++ "):\n"
  let shown := (A.states.toList.take shownStates).zipIdx.map fun (state, q) => state.text name q
  let hidden :=
    if A.size ≤ shownStates then ""
    else "\t... (" ++ toString (A.size - shownStates) ++ " more states)\n"
  header ++ String.join shown ++ hidden

end Automaton

end Motif
