/-
Anchors: conditions on a position that consume nothing.

The length of the input is an `Option Nat` throughout the library, because a
scan over input that is still arriving does not know it. An anchor at the end
cannot hold before the length is known, and every caller that runs without a
length has to ask again once it is there.
-/

set_option autoImplicit false

namespace Motif

/-- A condition on a position in the input that consumes no element. -/
inductive Anchor where
  /-- Holds before the first element. -/
  | atStart
  /-- Holds after the last element. -/
  | atEnd
deriving DecidableEq, Repr, Inhabited

namespace Anchor

/-- Does the anchor hold at position `index` of an input of length `length`?
With an unknown length the anchor at the end never holds. -/
def holds (index : Nat) (length : Option Nat) : Anchor → Bool
  | atStart => index == 0
  | atEnd => length == some index

@[simp] theorem holds_atStart (index : Nat) (length : Option Nat) :
    atStart.holds index length = (index == 0) := rfl

@[simp] theorem holds_atEnd (index : Nat) (length : Option Nat) :
    atEnd.holds index length = (length == some index) := rfl

/-- Does the anchor fail only because the length is not known yet? -/
def awaitsLength (length : Option Nat) (anchor : Anchor) : Bool :=
  anchor == atEnd && length.isNone

@[simp] theorem awaitsLength_some (length : Nat) (anchor : Anchor) :
    anchor.awaitsLength (some length) = false := by
  simp [awaitsLength]

/-- The anchor's name in the text of an automaton. -/
def text : Anchor → String
  | atStart => "Start"
  | atEnd => "End"

/-- The anchor's sign in the text of a pattern. -/
def sign : Anchor → String
  | atStart => "^"
  | atEnd => "$"

end Anchor

end Motif
