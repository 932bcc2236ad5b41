import RecordLayout.Main
import RecordLayout.Layout.Listing
import RecordLayout.Expr.Render
import RecordLayout.Script.TokenStream
import RecordLayout.Value.Tree
import RecordLayout.Proofs.Codec.DecodeEncode
import RecordLayout.Proofs.Codec.EncodeDecode
import RecordLayout.Proofs.Codec.WrittenNodes
import RecordLayout.Proofs.Codec.BitOrders
import RecordLayout.Proofs.Codec.Expressions
import RecordLayout.Proofs.Codec.Safety
import RecordLayout.Proofs.Codec.Extent
import RecordLayout.Proofs.Codec.Packing
import RecordLayout.Proofs.Codec.WholeInput
import RecordLayout.Proofs.Expr.Formula
import RecordLayout.Proofs.Expr.Unambiguous
import RecordLayout.Proofs.Value.Visits
import RecordLayout.Proofs.Bits.Pairing
import RecordLayout.Proofs.Layout.Scoping
import RecordLayout.Proofs.Codec.FailingSource
import RecordLayout.Proofs.Codec.Conformance
import RecordLayout.Proofs.Script.WholeScript
import RecordLayout.Proofs.Flat.Compilation
import RecordLayout.Proofs.Codec.Leniency
import RecordLayout.Proofs.Codec.FailingSink
import RecordLayout.Proofs.Names.Soundness
import RecordLayout.Proofs.Flat.Extension
import RecordLayout.Proofs.Expr.Folding
import RecordLayout.Proofs.Bits.TextForm
import RecordLayout.Proofs.Script.Partition
import RecordLayout.Proofs.Layout.Placement
import RecordLayout.Proofs.Bits.WholeBytes
import RecordLayout.Proofs.Codec.UnboundedLoops
import RecordLayout.Proofs.Codec.Taken
import RecordLayout.Proofs.Names.Rendered
import RecordLayout.Proofs.Names.Printed
import RecordLayout.Proofs.Pass.CertainBits
import RecordLayout.Proofs.Codec.Questions
import RecordLayout.Proofs.Codec.TreeSteps
import RecordLayout.Proofs.Codec.Composition
