import TaggedStream.Catalogue
import TaggedStream.Proofs.Framing
import TaggedStream.Proofs.Tiers
import TaggedStream.Proofs.Growth
import TaggedStream.Proofs.RoundTrip
import TaggedStream.Proofs.Binding
import TaggedStream.Proofs.Faultless
import TaggedStream.Proofs.Nesting
import TaggedStream.Proofs.Truncation
import TaggedStream.Proofs.Tiling
import TaggedStream.Proofs.Delivery
import TaggedStream.Proofs.Isolation
import TaggedStream.Proofs.SideBySide
import TaggedStream.Proofs.Reads
import TaggedStream.Proofs.Descent
import TaggedStream.Proofs.Atomic
import TaggedStream.Proofs.Dispatch
import TaggedStream.Proofs.RandomAccess
import TaggedStream.Proofs.Capacity
import TaggedStream.Proofs.Relocation
import TaggedStream.Proofs.Distance
import TaggedStream.Proofs.Buffers
import TaggedStream.Proofs.Mutations
import TaggedStream.Proofs.Frames
import TaggedStream.Proofs.LastStored
import TaggedStream.Proofs.Refusal
