import TaggedStream.Entry
import TaggedStream.Text

/-!
# Inline containers

Arrays, strings and sub-streams inside an entry. A fixed field holds a header, the data lie
further on in the same entry, and the header gives their distance from itself, so an entry can be
moved as a block.

* `Container.arrayRegion`     the data of an array field
* `InlineArray`               those bytes, read as scalars
* `Container.array?`, `string?`, `subStream?`   reading a field; errors, never faults
* `Container.patchArray`, `patchSubStream`      writing a header
* `Container.setArray`, `writeString`, `storeSubStream`   writing the data a header points to
-/

namespace TaggedStream

/-! ## arrays of scalars -/

structure InlineArray (t : ScalarType) where
  bytes : Bytes

namespace InlineArray

variable {t : ScalarType}

/-- the bytes that `n` elements take -/
def dataSize (t : ScalarType) (n : Nat) : Nat := n * t.size

def length (a : InlineArray t) : Nat := a.bytes.length / t.size

def isEmpty (a : InlineArray t) : Bool := a.bytes.isEmpty

def get? (a : InlineArray t) (i : Nat) : Option t.Value :=
  if (i + 1) * t.size ≤ a.bytes.length then some (t.decode (a.bytes.slice (i * t.size) t.size))
  else none

/-- the elements in order; a rest too short for one is left out -/
def toList (a : InlineArray t) : List t.Value :=
  if t.size ≤ a.bytes.length then
    t.decode (a.bytes.take t.size) :: toList ⟨a.bytes.drop t.size⟩
  else []
termination_by a.bytes.length
decreasing_by
  have := t.size_pos
  simp only [List.length_drop]
  omega

end InlineArray

namespace Container

/-- distance and count -/
def arrayHeaderSize : Nat := 8

/-- kind, id and count, then the header of the data -/
def subStreamHeaderSize : Nat := 12 + arrayHeaderSize

/-! ## reading -/

def headerWord (e : Bytes) (offset : Nat) : Except StreamError UInt32 :=
  if offset + 4 ≤ e.length then .ok (e.word offset) else .error (.shortOf offset 4 e.length)

/-- the data of the array whose header is at `field`; with count 0 the distance is ignored -/
def arrayRegion (e : Bytes) (field elementSize : Nat) : Except StreamError Bytes := do
  let distance ← headerWord e field
  let count ← headerWord e (field + 4)
  if count = 0 then
    return []
  else
    let start := field + distance.toNat
    let len := count.toNat * elementSize
    if start + len ≤ e.length then
      return e.slice start len
    else
      throw (.shortOf start len e.length)

def array? (e : Bytes) (t : ScalarType) (field : Nat) : Except StreamError (InlineArray t) :=
  (arrayRegion e field t.size).map fun data => ⟨data⟩

def string? (e : Bytes) (field : Nat) : Except StreamError String := do
  let data ← arrayRegion e field 1
  match Text.decode? data with
  | some s => return s
  | none => throw (.invalidUtf8 field)

/-- kind 0 is an absent stream, whatever follows it -/
def subStream? (e : Bytes) (field : Nat) : Except StreamError (Option Content) := do
  let kind ← headerWord e field
  if kind = 0 then
    return none
  else
    match SchemaKind.ofNumber? kind with
    | none => throw (.unknownSchemaKind kind)
    | some known =>
      let id ← headerWord e (field + 4)
      let count ← headerWord e (field + 8)
      let body ← arrayRegion e (field + 12) 1
      return some ⟨some ⟨known, id⟩, count, body⟩

theorem headerWord_ok {e : Bytes} {offset : Nat} {w : UInt32} (h : headerWord e offset = .ok w) :
    offset + 4 ≤ e.length ∧ w = e.word offset := by
  unfold headerWord at h
  split at h
  · cases h
    exact ⟨by assumption, rfl⟩
  · cases h

/-- the data lie in the entry, at their header or behind it -/
theorem length_arrayRegion {e data : Bytes} {field size : Nat}
    (h : arrayRegion e field size = .ok data) : field + data.length ≤ e.length := by
  simp only [arrayRegion, bind, Except.bind, pure, Except.pure, throw, throwThe,
    MonadExceptOf.throw] at h
  split at h
  · cases h
  · rename_i distance hd
    split at h
    · cases h
    · split at h
      · cases h
        have := (headerWord_ok hd).1
        simp only [List.length_nil]
        omega
      · split at h
        · cases h
          rw [Bytes.length_slice]
          omega
        · cases h

/-- a sub-stream is shorter than the entry that holds it -/
theorem length_body_of_subStream? {e : Bytes} {field : Nat} {c : Content}
    (h : subStream? e field = .ok (some c)) : field + 12 + c.body.length ≤ e.length := by
  simp only [subStream?, bind, Except.bind, pure, Except.pure, throw, throwThe,
    MonadExceptOf.throw] at h
  split at h
  · cases h
  · split at h
    · cases h
    · split at h
      · cases h
      · split at h
        · cases h
        · split at h
          · cases h
          · split at h
            · cases h
            · rename_i hr
              cases h
              exact length_arrayRegion hr

/-! ## writing -/

/-- the header of `count` elements that start at `data`; the distance keeps its low 32 bits -/
def patchArray (field data : Nat) (count : UInt32) : EntryM Unit := do
  if data < field then
    throw .arrayBeforeHeader
  else
    EntryM.update (Entry.writeWord · field (UInt32.ofNat (data - field)))
    EntryM.update (Entry.writeWord · (field + 4) count)

def patchSubStream (field data : Nat) (size : UInt32) : EntryM Unit :=
  if maxSize < field + 12 then throw .overflow else patchArray (field + 12) data size

/-- where the data described at `field` lie: offset and length -/
def dataRange (field elementSize : Nat) (e : Bytes) : Except Fault (Nat × Nat) := do
  let distance ← Entry.readWord e field
  let count ← Entry.readWord e (field + 4)
  return (field + distance.toNat, count.toNat * elementSize)

/-- the data described at `field` -/
def arrayBytes (t : ScalarType) (field : Nat) (e : Bytes) : Except Fault Bytes := do
  let (start, len) ← dataRange field t.size e
  Entry.region e start len

def setArray (field index : Nat) (v : Scalar) : EntryM Unit :=
  EntryM.update fun e => do
    let (start, len) ← dataRange field v.type.size e
    let _ ← Entry.region e start len
    if (index + 1) * v.type.size ≤ len then
      return e.splice (start + index * v.type.size) v.bytes
    else
      throw .outOfRange

/-- `bytes` over the data described at `field`, which must have the same length -/
def fillData (field : Nat) (bytes : Bytes) (mismatch : Fault) : EntryM Unit :=
  EntryM.update fun e => do
    let (start, len) ← dataRange field 1 e
    let _ ← Entry.region e start len
    if len = bytes.length then
      return e.splice start bytes
    else
      throw mismatch

def writeString (field : Nat) (s : String) : EntryM Unit :=
  fillData field (Text.encode s) .stringLength

/-- an empty stream, or one without a schema, is not stored at all -/
def storeSubStream (field : Nat) (source : Content) : EntryM Unit :=
  if source.isEmpty then pure ()
  else match source.schema with
    | none => pure ()
    | some schema => do
      EntryM.update (Entry.writeWord · field schema.kind.number)
      EntryM.update (Entry.writeWord · (field + 4) schema.id)
      EntryM.update (Entry.writeWord · (field + 8) source.count)
      fillData (field + 12) source.body .subStreamSize

end Container
end TaggedStream
