import Cbor.Main
import Cbor.Proofs.Decoder.Pieces
import Cbor.Proofs.FixedPoint
import Cbor.Proofs.References
import Cbor.Proofs.WellFormed
import Cbor.Proofs.Substitution
import Cbor.Proofs.Preferred
import Cbor.Proofs.Truncation
import Cbor.Proofs.Recoding
import Cbor.Proofs.Deterministic
import Cbor.Proofs.Expansion
import Cbor.Proofs.Reordering
import Cbor.Proofs.Sharing
import Cbor.Proofs.Item.Parts
import Cbor.Proofs.Encoder.Faults
import Cbor.Proofs.Diagnostic.Rendering
import Cbor.Proofs.Diagnostic.Pace
import Cbor.Proofs.Citation
import Cbor.Proofs.Diagnostic.Reader
import Cbor.Proofs.Diagnostic.Recovery
import Cbor.Proofs.Unambiguous
import Cbor.Proofs.Sequence
import Cbor.Proofs.Limits
import Cbor.Proofs.Stamp
import Cbor.Proofs.Keys
import Cbor.Proofs.Consistent
import Cbor.Proofs.Bignum.Value
import Cbor.Proofs.IntegerKeys
import Cbor.Proofs.Compose
import Cbor.Proofs.Decoder.Course
import Cbor.Proofs.Overriding
import Cbor.Proofs.Float
import Cbor.Proofs.Json.Bignum
import Cbor.Proofs.Printable
import Cbor.Proofs.Slice
import Cbor.Proofs.Wire.Head
