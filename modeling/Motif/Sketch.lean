/-
Sketches: patterns as they are written down.

A sketch has criteria where a pattern has handles, it may call patterns by the
names they were given before, and it may ask for an alternation of nothing. Making
it a pattern registers its criteria from left to right, a criterion each time it is
written. A named pattern keeps its handles, so every use of the name means the same
predicates. The first thing that cannot be built stops everything; the criteria
registered until then stay registered.
-/
import Motif.Criterion

set_option autoImplicit false

namespace Motif

/-- A pattern as it is written down. -/
inductive Sketch where
  | any
  | anchor (condition : Anchor)
  | meets (criterion : Criterion)
  | sequence (children : List Sketch)
  | alternation (left right : Sketch)
  | oneOf (alternatives : List Sketch)
  | repeated (child : Sketch) (min : Nat) (max : Option Nat)
  | repeatedLazily (child : Sketch) (min : Nat) (max : Option Nat)
  | plus (child : Sketch)
  | star (child : Sketch)
  | optional (child : Sketch)
  | lazily (child : Sketch)
  | named (name : String)
deriving Repr, Inhabited

/-- Why a sketch has no pattern. -/
inductive SketchError where
  /-- The pattern was refused. -/
  | refused (cause : BuildError)
  /-- No pattern has this name. -/
  | unknownName (name : String)
deriving DecidableEq, Repr

namespace Sketch

mutual
/-- The pattern of a sketch, where `named?` says what names mean. -/
def build (named? : String → Option (Pattern Nat)) :
    Sketch → ExceptT SketchError (StateM Memory) (Pattern Nat)
  | any => return .any
  | anchor condition => return .anchor condition
  | meets criterion => do
    let handle ← modifyGet (Memory.register criterion)
    return .predicate handle
  | sequence children => return .sequence (← buildAll named? children)
  | alternation left right => do
    let left ← build named? left
    let right ← build named? right
    return .alternation left right
  | oneOf alternatives => do
    let alternatives ← buildAll named? alternatives
    match Pattern.oneOf alternatives with
    | .ok pattern => return pattern
    | .error cause => throw (.refused cause)
  | repeated child min max => return (← build named? child).repeated min max
  | repeatedLazily child min max => return (← build named? child).repeatedLazily min max
  | plus child => return (← build named? child).plus
  | star child => return (← build named? child).star
  | optional child => return (← build named? child).optional
  | lazily child => return (← build named? child).lazily
  | named name =>
    match named? name with
    | some pattern => return pattern
    | none => throw (.unknownName name)

/-- The patterns of a list of sketches, built from left to right. -/
def buildAll (named? : String → Option (Pattern Nat)) :
    List Sketch → ExceptT SketchError (StateM Memory) (List (Pattern Nat))
  | [] => return []
  | child :: rest => do
    let child ← build named? child
    let rest ← buildAll named? rest
    return child :: rest
end

end Sketch

end Motif
