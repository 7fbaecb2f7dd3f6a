import TapeLang.Main
import TapeLang.Program.Layout
import TapeLang.Proofs.Backends
import TapeLang.Proofs.BatchSizes
import TapeLang.Proofs.Batches
import TapeLang.Proofs.Brackets
import TapeLang.Proofs.Clearing
import TapeLang.Proofs.Cuts
import TapeLang.Proofs.Evaluation
import TapeLang.Proofs.Excerpts
import TapeLang.Proofs.Exhaustion
import TapeLang.Proofs.FlatRuns
import TapeLang.Proofs.Growths
import TapeLang.Proofs.Jumps
import TapeLang.Proofs.Limits
import TapeLang.Proofs.Listings
import TapeLang.Proofs.LoopTree
import TapeLang.Proofs.Outputs
import TapeLang.Proofs.Packing
import TapeLang.Proofs.Passes
import TapeLang.Proofs.Readback
import TapeLang.Proofs.Refusals
import TapeLang.Proofs.Resumption
import TapeLang.Proofs.Rounds
import TapeLang.Proofs.Safety
import TapeLang.Proofs.Shapes
import TapeLang.Proofs.Shortening
import TapeLang.Proofs.Sizes
import TapeLang.Proofs.Slots
import TapeLang.Proofs.StepCounts
import TapeLang.Proofs.Stopping
import TapeLang.Proofs.Tally
import TapeLang.Proofs.TotalMap
import TapeLang.Proofs.Walking
import TapeLang.Proofs.Weights
import TapeLang.Proofs.Window
import TapeLang.Script.Reading
import TapeLang.Tape.Action
import TapeLang.Proofs.SourceNames
import TapeLang.Proofs.Dumps
import TapeLang.Proofs.Layouts
import TapeLang.Proofs.FrontEnds
