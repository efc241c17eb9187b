import Relayout.Main
import Relayout.Machine
import Relayout.Memory.Session
import Relayout.Document.JsonForm
import Relayout.Proofs.Transform.Containment
import Relayout.Proofs.Transform.Contents
import Relayout.Proofs.Memory.Relocation
import Relayout.Proofs.Memory.Batch
import Relayout.Proofs.Listing
import Relayout.Proofs.Memory.Failure
import Relayout.Proofs.Transform.Faults
import Relayout.Proofs.Rule.FixedPoint
import Relayout.Proofs.Transform.Stability
import Relayout.Proofs.Transform.Meaning
import Relayout.Proofs.Transform.Preview
import Relayout.Proofs.Transform.Testing
import Relayout.Proofs.Path.Ancestors
import Relayout.Proofs.Memory.Directories
import Relayout.Proofs.Memory.History
import Relayout.Proofs.Memory.Tidiness
import Relayout.Proofs.Glob.Expansion
import Relayout.Proofs.Document.RoundTrip
import Relayout.Proofs.Memory.Clients
import Relayout.Proofs.Memory.Wholeness
import Relayout.Proofs.Path.NormalForm
import Relayout.Proofs.Path.Parts
import Relayout.Proofs.Rule.ClosedForm
import Relayout.Proofs.Rule.ReadBack
import Relayout.Proofs.Path.Cuts
import Relayout.Proofs.Transform.Targets
import Relayout.Proofs.Glob.Directory
import Relayout.Proofs.Listing.Selected
import Relayout.Proofs.Memory.Sequence
import Relayout.Proofs.Memory.Writers
import Relayout.Proofs.Command.Forms
import Relayout.Proofs.Listing.Roots
import Relayout.Proofs.Glob.Search
import Relayout.Proofs.Disk.Walk
