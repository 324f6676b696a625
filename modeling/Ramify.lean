import Ramify.Csv.Command
import Ramify.Interchange.Json
import Ramify.Main
import Ramify.Parse.Source
import Ramify.Parse.View
import Ramify.Proofs.Continuation
import Ramify.Proofs.Csv.Reader
import Ramify.Proofs.Exactness
import Ramify.Proofs.Reordering
import Ramify.Proofs.Stack.Compile
import Ramify.Proofs.Unambiguous
import Ramify.Proofs.Merging
import Ramify.Proofs.Lifecycle
import Ramify.Proofs.Source
import Ramify.Proofs.Csv.Agreement
import Ramify.Proofs.Csv.Blame
import Ramify.Proofs.Csv.Streaming
import Ramify.Proofs.Loops
import Ramify.Proofs.Padding
import Ramify.Proofs.Precheck
import Ramify.Proofs.Flattening
import Ramify.Proofs.TailCalls
import Ramify.Proofs.Vanishing
import Ramify.Proofs.Ownership
import Ramify.Proofs.Readback
import Ramify.Proofs.Stack.Spelling
import Ramify.Proofs.NestedLoops
import Ramify.Proofs.Frames
import Ramify.Proofs.Marks
