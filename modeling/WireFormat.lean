import WireFormat.Definitions.Json
import WireFormat.Definitions.Resolve
import WireFormat.Report.Error
import WireFormat.Report.Schema
import WireFormat.Schema.Cache
import WireFormat.Proofs.Layout.Assembly
import WireFormat.Proofs.Layout.WellFormed
import WireFormat.Proofs.Descriptor.Places
import WireFormat.Proofs.Layout.Coherent
import WireFormat.Proofs.Length.Binding
import WireFormat.Proofs.Length.Compilation
import WireFormat.Proofs.Format.Decode
import WireFormat.Proofs.Format.RoundTrip
import WireFormat.Proofs.Size.Bound
import WireFormat.Proofs.Codec.Counting
import WireFormat.Proofs.Format.Rewrite
import WireFormat.Proofs.Conflict.Schema
import WireFormat.Proofs.Format.Truncation
import WireFormat.Proofs.Size.FixedSize
import WireFormat.Proofs.Format.Typing
import WireFormat.Proofs.Format.Conformance
import WireFormat.Proofs.Format.Agreement
import WireFormat.Proofs.Run.Faults
import WireFormat.Proofs.Run.Elements
import WireFormat.Proofs.Format.Texts
import WireFormat.Proofs.Stream.Transfer
import WireFormat.Proofs.Run.Capacity
import WireFormat.Proofs.Run.Failures
import WireFormat.Proofs.Format.Locality
import WireFormat.Proofs.Definitions.Resolution
import WireFormat.Proofs.Layout.Declarations
import WireFormat.Proofs.Order.Spans
import WireFormat.Proofs.Codec.Contexts
import WireFormat.Proofs.Definitions.Recursion
import WireFormat.Proofs.Schema.Caching
import WireFormat.Proofs.Format.Enums
import WireFormat.Proofs.Format.Specimen
import WireFormat.Proofs.Definitions.RoundTrip
import WireFormat.Proofs.Container.Prediction
import WireFormat.Proofs.Container.Upkeep
import WireFormat.Proofs.Codec.Decoded
import WireFormat.Proofs.Value.Bitfields
import WireFormat.Proofs.Value.Decimal
