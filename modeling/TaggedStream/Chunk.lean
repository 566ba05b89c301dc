import TaggedStream.Entry

/-!
# Chunked entries

A chunked entry starts with its own size and a mask. A base part follows, then the chunks whose
bit is set in the mask, in ascending order of their index.

* `ChunkShape`                   the sizes a message declares
* `ChunkShape.entrySize mask`    the size of an entry with that mask
* `ChunkShape.chunkOffset`       where a chunk starts, present chunks before it counted
* `declaredSize`, `mask`, `base`, `chunk?`   reading an entry
-/

namespace TaggedStream

structure ChunkShape where
  baseSize : Nat
  chunkSizes : List Nat
  deriving DecidableEq, Repr, Inhabited

namespace ChunkShape

/-- size and mask -/
def headerSize : Nat := 8

/-- the sizes of the present chunks together; bit 0 of the mask belongs to the first chunk -/
def presentSize : (mask : Nat) → List Nat → Nat
  | _, [] => 0
  | mask, n :: rest => (if mask % 2 = 1 then n else 0) + presentSize (mask / 2) rest

theorem presentSize_cons (mask n : Nat) (rest : List Nat) :
    presentSize mask (n :: rest) = (if mask % 2 = 1 then n else 0) + presentSize (mask / 2) rest :=
  rfl

def entrySize (c : ChunkShape) (mask : UInt32) : Nat :=
  headerSize + c.baseSize + presentSize mask.toNat c.chunkSizes

def chunkOffset (c : ChunkShape) (mask : UInt32) (index : Nat) : Nat :=
  headerSize + c.baseSize + presentSize mask.toNat (c.chunkSizes.take index)

/-- every bit of the mask stands for a chunk -/
def declares (c : ChunkShape) (mask : UInt32) : Bool := mask.toNat < 1 <<< c.chunkSizes.length

/-- the index and size of the chunk that a flag, one set bit, stands for -/
def chunkOf (c : ChunkShape) (flag : UInt32) : Except Fault (Nat × Nat) :=
  if flag.toNat = 1 <<< flag.toNat.log2 then
    match c.chunkSizes[flag.toNat.log2]? with
    | some size => .ok (flag.toNat.log2, size)
    | none => .error (.chunkFlagUndeclared flag)
  else .error .chunkFlagBits

/-! ## reading an entry -/

/-- how an entry shows itself in a log -/
def describe (e : Bytes) : String :=
  "ChunkedEntry \x7b bytes: " ++ toString e.length ++ " \x7d"

def declaredSize (e : Bytes) : Except Fault UInt32 := Entry.readWord e 0

def mask (e : Bytes) : Except Fault UInt32 := Entry.readWord e 4

/-- all bits of the flag are set; no flag at all is never present -/
def hasChunk (e : Bytes) (flag : UInt32) : Except Fault Bool :=
  if flag = 0 then .ok false else (mask e).map fun m => m &&& flag == flag

def base (c : ChunkShape) (e : Bytes) : Except Fault Bytes := Entry.region e headerSize c.baseSize

/-- the region of a chunk, if it is present -/
def chunkRange? (c : ChunkShape) (e : Bytes) (flag : UInt32) : Except Fault (Option (Nat × Nat)) := do
  let (index, size) ← c.chunkOf flag
  let present ← hasChunk e flag
  if present then
    let m ← mask e
    return some (c.chunkOffset m index, size)
  else
    return none

def chunk? (c : ChunkShape) (e : Bytes) (flag : UInt32) : Except Fault (Option Bytes) := do
  match ← c.chunkRange? e flag with
  | some (offset, size) => (Entry.region e offset size).map some
  | none => return none

end ChunkShape
end TaggedStream
