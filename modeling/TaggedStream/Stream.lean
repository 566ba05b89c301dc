import TaggedStream.Entry
import TaggedStream.Storage

/-!
# Streams

The holders of a content, and the rule by which a reader or writer binds its schema to one.

* `MessageStream`   writable; grows entry by entry, takes a schema once
* `FrozenStream`    immutable, with the version it was frozen at
* `MappedStream`    an immutable wire image, read in place
* `StreamM`         steps on a writable stream; a failure keeps what was done before it
* `Source`          any holder, as readers see it; `Source.bind`
-/

namespace TaggedStream

structure MessageStream where
  storage : Storage
  schema : Option Schema
  count : UInt32
  version : UInt32
  deriving DecidableEq, Repr, Inhabited

structure FrozenStream where
  content : Content
  version : UInt32
  deriving DecidableEq, Repr, Inhabited

namespace FrozenStream

def ofWire (image : Bytes) : Except StreamError FrozenStream :=
  (Content.ofWire image).map (⟨·, 0⟩)

def toWire (s : FrozenStream) : Bytes := s.content.toWire

end FrozenStream

structure MappedStream where
  image : Bytes
  header : Header
  deriving DecidableEq, Repr, Inhabited

namespace MappedStream

/-- the stream in the file at `path`, whose bytes are `file` if it exists -/
def ofFile (path : String) (file : Option Bytes) : Except StreamError MappedStream :=
  match file with
  | none => .error (.io ("open " ++ path))
  | some image =>
    if image.length < Header.size then .error (.shortOf 0 Header.size image.length)
    else (Header.decode image).map fun (header, _) => ⟨image, header⟩

def content (s : MappedStream) : Content :=
  ⟨s.header.schema, s.header.count, s.image.drop Header.size⟩

end MappedStream

/-! ## writable streams -/

/-- the place of an entry in the storage -/
structure Slot where
  offset : Nat
  length : Nat
  deriving DecidableEq, Repr, Inhabited

abbrev StreamM := EStateM Failure MessageStream

namespace MessageStream

def ofStorage (storage : Storage) : MessageStream := ⟨storage, none, 0, 0⟩

def empty : MessageStream := ofStorage .empty

def ofConfig (c : Config) : Except Fault MessageStream := (Storage.ofConfig c).map ofStorage

def withSchema (s : MessageStream) (schema : Schema) : MessageStream :=
  { s with schema := some schema }

def withVersion (s : MessageStream) (version : UInt32) : MessageStream := { s with version }

def content (s : MessageStream) : Content := ⟨s.schema, s.count, s.storage.bytes⟩

/-- an immutable copy -/
def freeze (s : MessageStream) : FrozenStream := ⟨s.content, s.version⟩

/-- no entries; schema, version and capacity stay -/
def clear (s : MessageStream) : MessageStream := { s with storage := s.storage.clear, count := 0 }

/-- the schema is set by the first request and must match ever after -/
def bind (s : MessageStream) (schema : Schema) : Except StreamError MessageStream :=
  match s.schema with
  | none => .ok (s.withSchema schema)
  | some actual => if actual = schema then .ok s else .error (.schemaMismatch schema actual)

/-- `a` and `b` with their bytes and counts exchanged; a schema that one of them lacks is taken
from the other, versions stay -/
def swap (a b : MessageStream) : Except StreamError (MessageStream × MessageStream) :=
  let bound : Except StreamError MessageStream :=
    match b.schema with
    | some schema => a.bind schema
    | none => .ok a
  bound.map fun a =>
    ({ a with storage := b.storage, count := b.count },
      { b with storage := a.storage, count := a.count, schema := a.schema })

/-! ## steps -/

def adopt (schema : Schema) : StreamM Unit := fun s =>
  match s.bind schema with
  | .ok bound => .ok () bound
  | .error e => .error (.error e) s

def fault (f : Fault) : StreamM α := throw (.fault f)

/-- `n` more bytes, counted as one entry -/
def allocate (n : Nat) : StreamM Slot := fun s =>
  match s.storage.allocate n with
  | .error f => .error (.fault f) s
  | .ok (offset, storage) =>
    if s.count.toNat = maxWord then .error (.fault .overflow) { s with storage }
    else .ok ⟨offset, n⟩ { s with storage, count := s.count + 1 }

/-- steps on the entry in a slot -/
def within (slot : Slot) (m : EntryM α) : StreamM α := fun s =>
  match s.storage.region slot.offset slot.length with
  | .error f => .error (.fault f) s
  | .ok entry =>
    let put (part : Bytes) : MessageStream :=
      { s with storage := { s.storage with bytes := s.storage.bytes.splice slot.offset part } }
    match m entry with
    | .ok a part => .ok a (put part)
    | .error f part => .error (.fault f) (put part)

end MessageStream

/-! ## sources -/

/-- a holder as a reader gets it: a borrowed content, a frozen or mapped stream, or a writable one
that the reader shares or has for itself -/
inductive Source where
  | content (c : Content)
  | frozen (s : FrozenStream)
  | mapped (s : MappedStream)
  | shared (s : MessageStream)
  | exclusive (s : MessageStream)
  deriving DecidableEq, Repr, Inhabited

namespace Source

def toContent : Source → Content
  | content c => c
  | frozen s => s.content
  | mapped s => s.content
  | shared s => s.content
  | exclusive s => s.content

/-- an unset schema suits every reader; only an exclusive reader sets it -/
def bind (source : Source) (schema : Schema) : Except StreamError Source :=
  match source with
  | exclusive s => (s.bind schema).map exclusive
  | _ =>
    match source.toContent.schema with
    | some actual =>
      if actual = schema then .ok source else .error (.schemaMismatch schema actual)
    | none => .ok source

end Source
end TaggedStream
