import CallNgrams.Main
import CallNgrams.Proofs.Flow.Cell
import CallNgrams.Proofs.Flow.Jumps
import CallNgrams.Proofs.Flow.Collapse
import CallNgrams.Proofs.Flow.Landing
import CallNgrams.Proofs.Flow.Decode
import CallNgrams.Proofs.Flow.Redirect
import CallNgrams.Proofs.Flow.Merge
import CallNgrams.Proofs.Flow.Passes
import CallNgrams.Proofs.Flow.SideEntry
import CallNgrams.Proofs.Flow.Repetition
import CallNgrams.Proofs.Flow.Compile
import CallNgrams.Proofs.Flow.Linking
import CallNgrams.Proofs.Flow.MergePoints
import CallNgrams.Proofs.Flow.Arrivals
import CallNgrams.Proofs.Flow.Decodable
import CallNgrams.Proofs.Flow.CallCells
import CallNgrams.Proofs.Flow.Untracked
import CallNgrams.Proofs.Subclasses
import CallNgrams.Proofs.Hierarchy
import CallNgrams.Proofs.Search.NgramSet
import CallNgrams.Proofs.Search.Rendered
import CallNgrams.Proofs.Search.Follow
import CallNgrams.Proofs.Search.Task
import CallNgrams.Proofs.Search.Termination
import CallNgrams.Proofs.Search.Gram
import CallNgrams.Proofs.Search.Run
import CallNgrams.Proofs.Search.Provenance
import CallNgrams.Proofs.Search.Shared
import CallNgrams.Proofs.Search.CallClosure
import CallNgrams.Proofs.Search.LoopFree
import CallNgrams.Proofs.Search.SquareFree
import CallNgrams.Proofs.Search.Exhaustive
import CallNgrams.Proofs.Search.Loops
import CallNgrams.Proofs.Search.Freedom
import CallNgrams.Proofs.Search.Finders
import CallNgrams.Proofs.Search.Saturation
import CallNgrams.Proofs.Search.Budget
import CallNgrams.Proofs.Search.Seeded
import CallNgrams.Proofs.Trace
import CallNgrams.Proofs.Flow.Fixpoint
import CallNgrams.Proofs.Flow.JumpLoops
import CallNgrams.Proofs.Search.FrameTable
import CallNgrams.Proofs.Search.Canonical
import CallNgrams.Proofs.Search.Trimming
import CallNgrams.Proofs.Search.FrameHandles
import CallNgrams.Proofs.Search.Numbered
import CallNgrams.Proofs.Search.NumberedNgrams
import CallNgrams.Proofs.Location
import CallNgrams.Proofs.Signature
import CallNgrams.Proofs.LastEntry
import CallNgrams.Proofs.Dump.Collect
import CallNgrams.Proofs.Selection
