import CellPack.Artifact
import CellPack.Cell.Slice
import CellPack.Cell.Snake
import CellPack.Cell.Stream
import CellPack.Cell.Packed
import CellPack.Json.Printer
import CellPack.Machine.Basic
import CellPack.TypeStore.Json
import CellPack.Proofs.Bits
import CellPack.Proofs.Cells
import CellPack.Proofs.Words
import CellPack.Proofs.Bytes
import CellPack.Proofs.Integers
import CellPack.Proofs.Contents
import CellPack.Proofs.Streams
import CellPack.Proofs.Packed
import CellPack.Proofs.Layouts
import CellPack.Proofs.Values
import CellPack.Proofs.Operations
import CellPack.Proofs.Runs
import CellPack.Proofs.Fields
import CellPack.Proofs.Programs
import CellPack.Proofs.Parsers
import CellPack.Proofs.Records
import CellPack.Proofs.Linked
import CellPack.Proofs.Names
import CellPack.Proofs.Procedures
import CellPack.Proofs.Outline
import CellPack.Proofs.Dependencies
import CellPack.Proofs.Headers
import CellPack.Proofs.Analysed
import CellPack.Proofs.Compiled
import CellPack.Proofs.RoundTrip
import CellPack.Proofs.Frames
import CellPack.Proofs.Messages
import CellPack.Proofs.Bounced
import CellPack.Proofs.Contracts
import CellPack.Proofs.Uncached
import CellPack.Proofs.Transparency
import CellPack.Proofs.Locality
import CellPack.Proofs.Reordering
import CellPack.Proofs.Capacities
import CellPack.Proofs.Chains
import CellPack.Proofs.Files
import CellPack.Proofs.Registration
import CellPack.Proofs.Evaluation
import CellPack.Proofs.Slots
import CellPack.Proofs.Aborts
import CellPack.Proofs.Failures
import CellPack.Proofs.FailedLoads
import CellPack.Proofs.Interpreter
import CellPack.Proofs.Limits
import CellPack.Proofs.HeaderCheck
import CellPack.Proofs.Framing
import CellPack.Proofs.Pieces
import CellPack.Proofs.Rigid
import CellPack.Proofs.Offsets
import CellPack.Proofs.Packing
import CellPack.Proofs.Oversize
import CellPack.Proofs.Schemas
import CellPack.Proofs.Coverage
import CellPack.Proofs.Signatures
import CellPack.Proofs.Folding
import CellPack.Proofs.Expansions
import CellPack.Proofs.Logs
import CellPack.Proofs.Thresholds
import CellPack.Proofs.FormatNames
import CellPack.Proofs.Formats
import CellPack.Proofs.Texts
import CellPack.Proofs.Display
import CellPack.Proofs.Readable
import CellPack.Proofs.Descriptions
import CellPack.Proofs.Addresses
import CellPack.Proofs.Deployment
import CellPack.Proofs.ConstantValues
import CellPack.Proofs.Calls
import CellPack.Proofs.Literals
import CellPack.Proofs.Nesting
import CellPack.Proofs.Boxes
