/-
A language of criteria for numbers and texts.

Most criteria look at the element and nothing else. Some remember elements in
named slots, some go by how often they have answered, and one panics while a
switch is on. They stand for everything that a predicate may do, and they are
kept in a memory that counts the answers of each. An evaluation that panics has no
answer and is not counted, so the one after it takes its turn. A criterion in the
memory is called by its number, and that number is the handle by which patterns
refer to it.
-/
import Std.Data.HashMap
import Motif.Element
import Motif.Run

set_option autoImplicit false

namespace Motif

/-- What a predicate asks of an element. -/
inductive Criterion where
  | always
  | never
  | even
  | odd
  | lessThan (bound : Int)
  | moreThan (bound : Int)
  /-- Numbers that leave this remainder, which is never negative. -/
  | residue (modulus remainder : Int)
  | equals (element : Element)
  | oneOf (elements : List Element)
  | startsWith (text : String)
  | hasLength (count : Nat)
  /-- Whatever the other criterion does not hold of. -/
  | negation (other : Criterion)
  /-- Everything; the element is kept in the slot. -/
  | remember (slot : String)
  /-- Elements equal to the one in the slot. -/
  | sameAsSlot (slot : String)
  /-- Numbers above the number in the slot, or any number if there is none. The
  slot then holds the new number. -/
  | rising (slot : String)
  /-- The first so many answers, whatever the element. -/
  | firstCalls (count : Nat)
  /-- Every so many answers, whatever the element. -/
  | everyCall (period : Nat)
  /-- Panics on this element while the switch is on; else asks the other. -/
  | panicOn (element : Element) (other : Criterion)
deriving Repr, Inhabited

/-- A panic on an element. -/
structure Panic where
  element : Element
deriving DecidableEq, Repr

def Panic.message (p : Panic) : String := "predicate panicked on " ++ p.element.shown

/-- What criteria share: the slots, and the switch that lets them panic. -/
structure Notes where
  slots : Std.HashMap String Element := {}
  /-- May a criterion panic? -/
  armed : Bool := true
deriving Inhabited

namespace Criterion

/-- Asks a criterion for its answer of number `turn`, counted from one. -/
def eval (turn : Nat) (x : Element) : Criterion → Notes → Except Panic Bool × Notes
  | always, notes => (.ok true, notes)
  | never, notes => (.ok false, notes)
  | even, notes => (.ok (x.isNumberThat fun n => n % 2 == 0), notes)
  | odd, notes => (.ok (x.isNumberThat fun n => n % 2 == 1), notes)
  | lessThan bound, notes => (.ok (x.isNumberThat fun n => n < bound), notes)
  | moreThan bound, notes => (.ok (x.isNumberThat fun n => bound < n), notes)
  | residue modulus remainder, notes =>
    (.ok (x.isNumberThat fun n => n % modulus == remainder), notes)
  | equals element, notes => (.ok (x == element), notes)
  | oneOf elements, notes => (.ok (elements.contains x), notes)
  | startsWith text, notes => (.ok (x.isTextThat fun cs => text.toList.isPrefixOf cs), notes)
  | hasLength count, notes => (.ok (x.isTextThat fun cs => cs.length == count), notes)
  | negation other, notes =>
    let (answer, notes) := eval turn x other notes
    (answer.map (!·), notes)
  | remember slot, notes => (.ok true, { notes with slots := notes.slots.insert slot x })
  | sameAsSlot slot, notes => (.ok (notes.slots[slot]? == some x), notes)
  | rising slot, notes =>
    let higher := x.isNumberThat fun n =>
      match notes.slots[slot]? with
      | some (.number held) => held < n
      | _ => true
    (.ok higher, if higher then { notes with slots := notes.slots.insert slot x } else notes)
  | firstCalls count, notes => (.ok (turn ≤ count), notes)
  | everyCall period, notes => (.ok (turn % period == 0), notes)
  | panicOn element other, notes =>
    if notes.armed && x == element then (.error ⟨x⟩, notes) else eval turn x other notes

end Criterion

/-- A criterion that patterns refer to, and how often it has answered. -/
structure Registered where
  criterion : Criterion
  answers : Nat := 0
deriving Inhabited

/-- The memory of criteria. -/
structure Memory where
  /-- The criteria; a criterion's number is its place in the array. -/
  registered : Array Registered := #[]
  notes : Notes := {}
deriving Inhabited

namespace Memory

/-- Gives a criterion the next number. -/
def register (criterion : Criterion) (memory : Memory) : Nat × Memory :=
  (memory.registered.size,
    { memory with registered := memory.registered.push { criterion } })

/-- Counts an answer of the criterion of number `handle`. -/
def count (handle : Nat) (memory : Memory) : Memory :=
  { memory with
    registered := memory.registered.modify handle fun entry =>
      { entry with answers := entry.answers + 1 } }

/-- Asks the criterion of number `handle`, and counts the answer. Nothing is known
of a number that was never given, and it holds of nothing. -/
def ask (handle : Nat) (x : Element) (memory : Memory) : Except Panic Bool × Memory :=
  match memory.registered[handle]? with
  | none => (.ok false, memory)
  | some entry =>
    let (answer, notes) := entry.criterion.eval (entry.answers + 1) x memory.notes
    let memory := { memory with notes }
    match answer with
    | .ok holds => (.ok holds, memory.count handle)
    | .error panic => (.error panic, memory)

/-- Turns the switch that lets criteria panic. -/
def arm (on : Bool) (memory : Memory) : Memory :=
  { memory with notes := { memory.notes with armed := on } }

end Memory

/-- The predicates that the criteria of a memory stand for. -/
def criteria : Predicates Nat Element Memory Panic := ⟨Memory.ask⟩

/-- What a criterion of this number is called in texts. -/
def criterionName (handle : Nat) : String := "Predicate(#" ++ toString handle ++ ")"

end Motif
