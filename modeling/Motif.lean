import Motif.Anchor
import Motif.Word
import Motif.BuildError
import Motif.Pattern.Basic
import Motif.Pattern.Size
import Motif.Pattern.Text
import Motif.StateSet
import Motif.IndexedSet
import Motif.Fault
import Motif.Automaton.Basic
import Motif.Automaton.Layout
import Motif.Automaton.Builder
import Motif.Automaton.Text
import Motif.Automaton.Closure
import Motif.Automaton.Step
import Motif.Run
import Motif.Matcher
import Motif.Match
import Motif.Attempt
import Motif.Search
import Motif.Scanner
import Motif.Text.Quoted
import Motif.Element
import Motif.Criterion
import Motif.Sketch
import Motif.Tally
import Motif.Proofs.Outcome
import Motif.Proofs.Closure
import Motif.Proofs.Blocks
import Motif.Proofs.Step
import Motif.Proofs.Attempt
import Motif.Proofs.Matches
import Motif.Proofs.Search
import Motif.Proofs.Scanner
import Motif.Proofs.Calls
import Motif.Proofs.Streaming
import Motif.Proofs.Tiling
import Motif.Proofs.Meaning
import Motif.Proofs.Routes
import Motif.Proofs.Compilation
import Motif.Proofs.Lengths
import Motif.Proofs.Record
import Motif.Proofs.FirstMatch
import Motif.Proofs.Session
import Motif.Proofs.Preorder
import Motif.Proofs.Questions
import Motif.Proofs.Bisimulation
import Motif.Proofs.Reordering
import Motif.Proofs.Twins
import Motif.Proofs.Mirror
import Motif.Proofs.Preference
import Motif.Proofs.Budget
import Motif.Proofs.Shape
import Motif.Proofs.Work
import Motif.Proofs.Gates
import Motif.Proofs.Anchors
import Motif.Proofs.Translation
import Motif.Proofs.Extension
import Motif.Proofs.Rewriting
import Motif.Proofs.Interruption
import Motif.Proofs.Log
import Motif.Proofs.Lateness
import Motif.Proofs.Readability
import Motif.Proofs.Relocation
import Motif.Proofs.SetHistory
