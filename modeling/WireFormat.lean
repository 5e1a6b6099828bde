import WireFormat.Cursor
import WireFormat.Json.Parse
import WireFormat.Proofs.Append
import WireFormat.Proofs.BlobOrder
import WireFormat.Proofs.Documents
import WireFormat.Proofs.Extension
import WireFormat.Proofs.HexLayout
import WireFormat.Proofs.Loading
import WireFormat.Proofs.Pieces
import WireFormat.Proofs.Places
import WireFormat.Proofs.Projection
import WireFormat.Proofs.ReadFailures
import WireFormat.Proofs.Size
import WireFormat.Proofs.Unread
import WireFormat.Proofs.Varint.Overflow
import WireFormat.Proofs.Varint.Spellings
import WireFormat.Proofs.Varint.Stream
import WireFormat.Text.Casing
