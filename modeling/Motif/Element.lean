/-
Elements that are numbers or texts. A number never equals a text, and texts are
equal only if they have the same code points.
-/
import Motif.Text.Quoted

set_option autoImplicit false

namespace Motif

/-- An element of an input: a number or a text. -/
inductive Element where
  | number (value : Int)
  | text (value : String)
deriving DecidableEq, Repr, Inhabited

namespace Element

/-- The element in one line of text: the digits of a number, or a quoted text. -/
def shown : Element → String
  | number value => toString value
  | text value => Text.quoted value

/-- Is the element a number of which the test holds? -/
def isNumberThat (test : Int → Bool) : Element → Bool
  | number value => test value
  | text _ => false

/-- Is the element a text of whose characters the test holds? -/
def isTextThat (test : List Char → Bool) : Element → Bool
  | number _ => false
  | text value => test value.toList

end Element

end Motif
