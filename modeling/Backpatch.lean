import Backpatch.Bytes
import Backpatch.Cell
import Backpatch.Datum
import Backpatch.Datum.Literal
import Backpatch.Decimal.Shortest
import Backpatch.Decimal.Text
import Backpatch.Digest.Blocks
import Backpatch.Digest.Checksum
import Backpatch.Digest.Md5
import Backpatch.Digest.Sha1
import Backpatch.Disk
import Backpatch.Disk.Path
import Backpatch.Error
import Backpatch.Failable
import Backpatch.Format
import Backpatch.Image
import Backpatch.Image.View
import Backpatch.Instruction
import Backpatch.Instruction.Opcode
import Backpatch.Instruction.ShortCall
import Backpatch.Journal
import Backpatch.Layout
import Backpatch.Layout.Finalize
import Backpatch.Proofs.Failable
import Backpatch.Region
import Backpatch.Session
import Backpatch.Session.Function
import Backpatch.Session.Images
import Backpatch.Session.Regions
import Backpatch.Session.Run
import Backpatch.Session.Snapshots
import Backpatch.Session.Values
import Backpatch.Snapshot.Builder
import Backpatch.Snapshot.Header
import Backpatch.Store
import Backpatch.Store.Derive
import Backpatch.Store.Dispatch
import Backpatch.Text.Printable
import Backpatch.Text.Quoted
import Backpatch.Proofs.Store
import Backpatch.Proofs.Cascade
import Backpatch.Proofs.Image
import Backpatch.Proofs.Growth
import Backpatch.Proofs.Validity
import Backpatch.Proofs.Steps
import Backpatch.Proofs.Operations
import Backpatch.Proofs.Building
import Backpatch.Proofs.History
import Backpatch.Proofs.Lasting
import Backpatch.Proofs.Fields
import Backpatch.Proofs.Flattening
import Backpatch.Proofs.Graph
import Backpatch.Proofs.Finalization
import Backpatch.Proofs.Reserved
import Backpatch.Proofs.Forwarding
import Backpatch.Proofs.Headers
import Backpatch.Proofs.Grammar
import Backpatch.Proofs.Preparation
import Backpatch.Proofs.Emission
import Backpatch.Proofs.Sections
import Backpatch.Proofs.RoundTrip
import Backpatch.Proofs.Waiting
import Backpatch.Proofs.Stability
import Backpatch.Proofs.Digests
import Backpatch.Proofs.Placeholders
import Backpatch.Proofs.Outcomes
import Backpatch.Proofs.SmoothSteps
import Backpatch.Proofs.Models
import Backpatch.Proofs.Rendering
import Backpatch.Proofs.Rendition
import Backpatch.Proofs.Previews
import Backpatch.Proofs.Sources
import Backpatch.Proofs.Programs
import Backpatch.Proofs.Derivations
import Backpatch.Proofs.Branches
import Backpatch.Proofs.Traces
import Backpatch.Proofs.Endings
import Backpatch.Proofs.Leaves
import Backpatch.Proofs.Execution
import Backpatch.Proofs.Dispatch
import Backpatch.Proofs.Failures
import Backpatch.Proofs.Fidelity
import Backpatch.Proofs.Rows
import Backpatch.Proofs.Views
import Backpatch.Proofs.Files
import Backpatch.Proofs.Bursts
import Backpatch.Proofs.Appending
import Backpatch.Proofs.Decoding
import Backpatch.Proofs.Room
import Backpatch.Proofs.Capacity
import Backpatch.Proofs.Tiling
import Backpatch.Proofs.Queues
import Backpatch.Proofs.Reports
import Backpatch.Proofs.Unreferenced
import Backpatch.Proofs.Differences
import Backpatch.Proofs.Overflow
import Backpatch.Proofs.Integers
import Backpatch.Proofs.Remainders
import Backpatch.Proofs.Atomicity
import Backpatch.Proofs.Tickets
import Backpatch.Proofs.ShortCalls
import Backpatch.Proofs.Nesting
import Backpatch.Proofs.Texts
import Backpatch.Proofs.Checkpoints
import Backpatch.Proofs.Tolerance
import Backpatch.Proofs.Mapped
import Backpatch.Proofs.Assembly
import Backpatch.Proofs.Termination
