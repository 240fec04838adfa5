/-
Patterns over sequences of arbitrary elements.

A pattern is a tree whose leaves test single elements or positions. What a
predicate *is* stays open: a pattern only holds a handle of type `π`, so that
patterns can be compared and printed while the tests behind the handles may
remember, count or fail. Two predicates are the same if their handles are.

The combinators below add nothing to the type: each is one constructor with its
bounds filled in, and `oneOf` nests to the right so that a list of alternatives
has exactly one tree.
-/
import Motif.Anchor
import Motif.BuildError

set_option autoImplicit false

namespace Motif

/-- A pattern whose predicates are named by handles of type `π`. -/
inductive Pattern (π : Type) where
  /-- One element of which the predicate holds. -/
  | predicate (handle : π)
  /-- Any one element. -/
  | any
  /-- The children one after the other; with no children, the empty run. -/
  | sequence (children : List (Pattern π))
  /-- At least `min` and at most `max` copies of the child, without an upper
  bound if `max` is `none`. A `max` below `min` is read as `min`. `greedy` only
  decides which of several lengths is preferred. -/
  | repetition (child : Pattern π) (min : Nat) (max : Option Nat) (greedy : Bool)
  /-- Either of two patterns, with no preference between them. -/
  | alternation (left right : Pattern π)
  /-- No element, at a position where the anchor holds. -/
  | anchor (condition : Anchor)
deriving Repr

namespace Pattern

variable {π : Type}

instance : Inhabited (Pattern π) := ⟨any⟩

/-! ## Combinators -/

/-- Between `min` and `max` copies, the more the better. -/
def repeated (child : Pattern π) (min : Nat) (max : Option Nat) : Pattern π :=
  repetition child min max true

/-- Between `min` and `max` copies, the fewer the better. -/
def repeatedLazily (child : Pattern π) (min : Nat) (max : Option Nat) : Pattern π :=
  repetition child min max false

/-- One copy or more. -/
def plus (child : Pattern π) : Pattern π := child.repeated 1 none

/-- Any number of copies. -/
def star (child : Pattern π) : Pattern π := child.repeated 0 none

/-- One copy or nothing. -/
def optional (child : Pattern π) : Pattern π := child.repeated 0 (some 1)

/-- A repetition made lazy. Only the root of the tree is looked at: any other
pattern, whatever it contains, is returned as it is. -/
def lazily : Pattern π → Pattern π
  | repetition child min max _ => repetition child min max false
  | other => other

/-- The alternatives `first, rest…`, nested to the right. -/
def oneOfFrom (first : Pattern π) : List (Pattern π) → Pattern π
  | [] => first
  | second :: rest => alternation first (oneOfFrom second rest)

/-- Any one of the alternatives. A single alternative is itself, and an empty
list is refused, since there would be nothing to match. -/
def oneOf : List (Pattern π) → Except BuildError (Pattern π)
  | [] => .error .emptyAlternation
  | first :: rest => .ok (oneOfFrom first rest)

@[simp] theorem oneOfFrom_nil (first : Pattern π) : oneOfFrom first [] = first := rfl

@[simp] theorem oneOfFrom_cons (first second : Pattern π) (rest : List (Pattern π)) :
    oneOfFrom first (second :: rest) = alternation first (oneOfFrom second rest) := rfl

/-- The only list of alternatives that is refused is the empty one. -/
theorem oneOf_eq_error_iff (alternatives : List (Pattern π)) (e : BuildError) :
    oneOf alternatives = .error e ↔ alternatives = [] ∧ e = .emptyAlternation := by
  cases alternatives <;> simp [oneOf, eq_comm]

/-! ## Preference -/

mutual
/-- Is every repetition in the pattern greedy? One lazy repetition anywhere makes
the whole pattern lazy. -/
def isGreedy : Pattern π → Bool
  | predicate _ => true
  | any => true
  | sequence children => allGreedy children
  | repetition child _ _ greedy => greedy && isGreedy child
  | alternation left right => isGreedy left && isGreedy right
  | anchor _ => true

/-- Are all patterns of a list greedy? -/
def allGreedy : List (Pattern π) → Bool
  | [] => true
  | child :: rest => isGreedy child && allGreedy rest
end

theorem allGreedy_eq_all (children : List (Pattern π)) :
    allGreedy children = children.all isGreedy := by
  induction children with
  | nil => rfl
  | cons child rest ih => simp [allGreedy, ih]

end Pattern

end Motif
