import TaggedStream.Entry.Script

/-!
# Scripts on a chunked entry

The operations on a chunked entry that is being written, as data.

* `ChunkShape.Op`, `ChunkShape.Answer`   an operation and what it answers
* `ChunkShape.perform`, `ChunkShape.run`   one operation, and a run that no fault stops
-/

namespace TaggedStream.ChunkShape

inductive Op where
  | mask
  | hasChunk (flag : UInt32)
  | base (ops : List Entry.Op)
  | chunk (flag : UInt32) (ops : List Entry.Op)
  | entry

inductive Answer where
  | mask (m : UInt32)
  | present (b : Bool)
  /-- the steps on the base or on a chunk of that many bytes -/
  | part (length : Nat) (results : List Entry.Result)
  | absent
  | entry (declared : UInt32) (bytes : Bytes)

/-- steps on a part of the entry -/
def onPart (resolve : Resolver) (offset length : Nat) (ops : List Entry.Op) : EntryM Answer :=
  EntryM.within offset length (do return .part length (← Entry.script resolve ops))

def perform (resolve : Resolver) (c : ChunkShape) : Op → EntryM Answer
  | .mask => EntryM.query fun e => (mask e).map .mask
  | .hasChunk flag => EntryM.query fun e => (hasChunk e flag).map .present
  | .base ops => onPart resolve headerSize c.baseSize ops
  | .chunk flag ops => do
    match ← EntryM.query (c.chunkRange? · flag) with
    | some (offset, size) => onPart resolve offset size ops
    | none => return .absent
  | .entry => EntryM.query fun e => (declaredSize e).map (Answer.entry · e)

def run (resolve : Resolver) (c : ChunkShape) : List Op → EntryM (List (Except Fault Answer))
  | [] => pure []
  | op :: ops => do
    let first ← EntryM.attempt (c.perform resolve op)
    return first :: (← c.run resolve ops)

end TaggedStream.ChunkShape
