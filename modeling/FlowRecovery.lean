import FlowRecovery.Offset
import FlowRecovery.Labels
import FlowRecovery.Token
import FlowRecovery.Scope
import FlowRecovery.Statement
import FlowRecovery.Block
import FlowRecovery.Structuring.Outcome
import FlowRecovery.Structuring.Tidy
import FlowRecovery.Structuring.Rewrite
import FlowRecovery.Structuring.FixedPoint
import FlowRecovery.Inspection
import FlowRecovery.Elision
import FlowRecovery.Printer
import FlowRecovery.Options
import FlowRecovery.Listing
import FlowRecovery.Body
import FlowRecovery.Json.Literal
import FlowRecovery.Json.Rounding
import FlowRecovery.Json.Numeral
import FlowRecovery.Json.Basic
import FlowRecovery.Json.Nesting
import FlowRecovery.Json.Record
import FlowRecovery.Json.Reader
import FlowRecovery.Json.Writer
import FlowRecovery.Format.Labels
import FlowRecovery.Format.Token
import FlowRecovery.Format.Listing
import FlowRecovery.Format.Options
import FlowRecovery.Format.Body
import FlowRecovery.CommandLine.Request
import FlowRecovery.CommandLine.Run
import FlowRecovery.Main
import FlowRecovery.Proofs.Rewriting
import FlowRecovery.Proofs.Convergence
import FlowRecovery.Proofs.Accounting
import FlowRecovery.Proofs.Escapes
import FlowRecovery.Proofs.Locality
import FlowRecovery.Proofs.Equations
import FlowRecovery.Proofs.Source
import FlowRecovery.Proofs.RoundTrip
import FlowRecovery.Proofs.Gotos
import FlowRecovery.Proofs.Machine
import FlowRecovery.Proofs.Meaning
import FlowRecovery.Proofs.Consistency
import FlowRecovery.Proofs.InPlace
import FlowRecovery.Proofs.Surgery
import FlowRecovery.Proofs.Assembly
import FlowRecovery.Proofs.Leftovers
import FlowRecovery.Proofs.LostLabels
import FlowRecovery.Proofs.Likeness
import FlowRecovery.Proofs.Sequence
import FlowRecovery.Proofs.Coverage
import FlowRecovery.Proofs.LabelLines
import FlowRecovery.Proofs.Frontier
import FlowRecovery.Proofs.Alternatives
import FlowRecovery.Proofs.Shortening
import FlowRecovery.Proofs.Codec
import FlowRecovery.Proofs.ListingFiles
import FlowRecovery.Proofs.Relocation
import FlowRecovery.Proofs.Distances
import FlowRecovery.Proofs.Wording
import FlowRecovery.Proofs.Exits
import FlowRecovery.Proofs.Framing
import FlowRecovery.Proofs.PassLimits
import FlowRecovery.Proofs.Rendering
import FlowRecovery.Proofs.Undecoded
import FlowRecovery.Proofs.StraightSelections
import FlowRecovery.Proofs.SourceMap
import FlowRecovery.Proofs.LabelTables
import FlowRecovery.Proofs.IteratorEnds
