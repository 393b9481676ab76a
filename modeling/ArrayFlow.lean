import ArrayFlow.Binary64.Basic
import ArrayFlow.Binary64.Bits
import ArrayFlow.Binary64.Decimal
import ArrayFlow.Word
import ArrayFlow.RowMajor
import ArrayFlow.Shape
import ArrayFlow.Fault
import ArrayFlow.Journal
import ArrayFlow.Slice
import ArrayFlow.View
import ArrayFlow.Refusal
import ArrayFlow.Constant
import ArrayFlow.Variable.Integer
import ArrayFlow.Variable.List
import ArrayFlow.Variable.Rows
import ArrayFlow.Ascending
import ArrayFlow.Description
import ArrayFlow.Indexing.Basic
import ArrayFlow.Indexing.Advanced
import ArrayFlow.Graph.Dependencies
import ArrayFlow.Graph.Basic
import ArrayFlow.Graph.Edit
import ArrayFlow.Proofs.Outcome
import ArrayFlow.Proofs.Word
import ArrayFlow.Proofs.Binary64
import ArrayFlow.Proofs.WholeNumbers
import ArrayFlow.Proofs.Exact
import ArrayFlow.Proofs.RowMajor
import ArrayFlow.Proofs.Shape
import ArrayFlow.Proofs.Slice
import ArrayFlow.Proofs.View
import ArrayFlow.Proofs.BasicIndexing
import ArrayFlow.Proofs.Journal
import ArrayFlow.Proofs.Variable
import ArrayFlow.Proofs.Gathered
import ArrayFlow.Proofs.Replay
import ArrayFlow.Proofs.Indexers
import ArrayFlow.Proofs.AdvancedIndexing
import ArrayFlow.Proofs.Built
import ArrayFlow.Proofs.Reading
import ArrayFlow.Proofs.Steps
import ArrayFlow.Proofs.Slots
import ArrayFlow.Proofs.Calls
import ArrayFlow.Proofs.Frames
import ArrayFlow.Proofs.Restoring
import ArrayFlow.Proofs.Settled
import ArrayFlow.Proofs.Propagation
import ArrayFlow.Proofs.Resting
import ArrayFlow.Proofs.Initialization
import ArrayFlow.Proofs.Rebuilding
import ArrayFlow.Proofs.Accounting
import ArrayFlow.Proofs.Protocol
import ArrayFlow.Proofs.Progress
import ArrayFlow.Proofs.Search
import ArrayFlow.Proofs.Idempotence
import ArrayFlow.Proofs.Acceptance
import ArrayFlow.Proofs.Selection
import ArrayFlow.Proofs.Lasting
import ArrayFlow.Proofs.RowCounts
import ArrayFlow.Proofs.Bounds
import ArrayFlow.Proofs.Renumbering
import ArrayFlow.Proofs.EditScripts
import ArrayFlow.Proofs.Pairing
import ArrayFlow.Proofs.Agreement
import ArrayFlow.Proofs.Refusals
import ArrayFlow.Proofs.Increments
import ArrayFlow.Proofs.Extents
import ArrayFlow.Proofs.LateFilling
import ArrayFlow.Proofs.Histories
import ArrayFlow.Proofs.Chains
import ArrayFlow.Proofs.WayBack
import ArrayFlow.Proofs.VariableHistory
import ArrayFlow.Proofs.Arrangement
import ArrayFlow.Proofs.WholeRows
import ArrayFlow.Proofs.Contiguity
import ArrayFlow.Proofs.Walk
import ArrayFlow.Proofs.IntegerBounds
import ArrayFlow.Proofs.NearestToZero
import ArrayFlow.Proofs.Handles
import ArrayFlow.Proofs.Startup
