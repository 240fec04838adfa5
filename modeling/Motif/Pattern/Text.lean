/-
The text of a pattern.

Every node closes what it opens: alternatives stand in parentheses, sequences in
brackets, and the bounds of a repetition follow the repeated pattern in braces
with a question mark behind them if it is lazy. Predicates have no structure to
show, so the caller names them.
-/
import Motif.Pattern.Basic

set_option autoImplicit false

namespace Motif

namespace Pattern

variable {π : Type}

/-- The bounds of a repetition, `{min,max}` or `{min,}`. -/
def boundsText (min : Nat) : Option Nat → String
  | some max => "\x7b" ++ toString min ++ "," ++ toString max ++ "\x7d"
  | none => "\x7b" ++ toString min ++ ",\x7d"

/-- The mark behind the bounds of a lazy repetition. -/
def preferenceText (greedy : Bool) : String := if greedy then "" else "?"

mutual
/-- The text of a pattern whose predicates are called what `name` says. -/
def text (name : π → String) : Pattern π → String
  | predicate handle => name handle
  | any => "Any"
  | sequence children => "[" ++ textOfChildren name children ++ "]"
  | repetition child min max greedy =>
    text name child ++ boundsText min max ++ preferenceText greedy
  | alternation left right => "(" ++ text name left ++ "|" ++ text name right ++ ")"
  | anchor condition => condition.sign

/-- The texts of a sequence's children with commas between them. -/
def textOfChildren (name : π → String) : List (Pattern π) → String
  | [] => ""
  | [child] => text name child
  | child :: next :: rest => text name child ++ ", " ++ textOfChildren name (next :: rest)
end

end Pattern

end Motif
