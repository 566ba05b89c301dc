import TaggedStream.Chunk

/-!
# Entry layouts

How the entries of a stream body follow each other. Every layout says how long a header is,
which size an entry declares, which entries it accepts, and what an entry holds.

* static     entries of one size, no header
* chunked    size and mask, then base and chunks (`ChunkShape`)
* dynamic    the payload size, then the payload
* ordered    a message id, the payload size, then the payload (`OrderedMessage`)
-/

namespace TaggedStream

/-- one entry of a stream of mixed messages -/
structure OrderedMessage where
  id : UInt32
  payload : Bytes
  deriving DecidableEq, Repr, Inhabited

inductive Layout where
  | static (size : Nat)
  | chunked (shape : ChunkShape)
  | dynamic
  | ordered
  deriving DecidableEq, Repr, Inhabited

namespace Layout

def headerSize : Layout → Nat
  | static _ => 0
  | chunked _ => ChunkShape.headerSize
  | dynamic => 4
  | ordered => 8

/-- the size, header included, that the entry at the front of `rest` declares -/
def entrySize : Layout → (rest : Bytes) → Nat
  | static size, _ => size
  | chunked _, rest => (rest.word 0).toNat
  | dynamic, rest => 4 + (rest.word 0).toNat
  | ordered, rest => 8 + (rest.word 4).toNat

/-- what an entry of the declared size must satisfy besides -/
def accepts : Layout → (entry : Bytes) → Bool
  | chunked shape, entry =>
    shape.declares (entry.word 4) && shape.entrySize (entry.word 4) == entry.length
  | _, _ => true

/-- what an entry holds: its payload, or the whole entry where the message reads the header too -/
abbrev Item : Layout → Type
  | ordered => OrderedMessage
  | _ => Bytes

def decode : (l : Layout) → (entry : Bytes) → l.Item
  | static _, entry => entry
  | chunked _, entry => entry
  | dynamic, entry => entry.drop 4
  | ordered, entry => ⟨entry.word 0, entry.drop 8⟩

/-- the bytes of an item -/
def payload : (l : Layout) → l.Item → Bytes
  | static _, item => item
  | chunked _, item => item
  | dynamic, item => item
  | ordered, item => item.payload

theorem length_payload_decode (l : Layout) (entry : Bytes) :
    (l.payload (l.decode entry)).length ≤ entry.length := by
  cases l with
  | static _ => exact Nat.le_refl _
  | chunked _ => exact Nat.le_refl _
  | dynamic =>
    show (entry.drop 4).length ≤ _
    rw [List.length_drop]
    exact Nat.sub_le _ _
  | ordered =>
    show (entry.drop 8).length ≤ _
    rw [List.length_drop]
    exact Nat.sub_le _ _

end Layout
end TaggedStream
