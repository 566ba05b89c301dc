import TaggedStream.Container
import TaggedStream.Cursor
import TaggedStream.Stream

/-!
# Message types

What a message type declares, and which streams its readers and writers accept.

* `StaticMessage`    fields at fixed offsets of an entry of fixed size
* `DynamicMessage`   inline containers in a payload of any size
* `ChunkedMessage`   a base and optional chunks
* `Message`          any of them; `schema` and `layout`
* `Target`           what a stream is opened as: one message type, or mixed messages
* `Target.bind`      opening a source, `MessageStream.openAs` opening a stream for writing
-/

namespace TaggedStream

/-- a scalar of a static message -/
structure Field where
  type : ScalarType
  offset : Nat
  deriving DecidableEq, Repr, Inhabited

structure StaticMessage where
  id : UInt32
  size : Nat
  fields : List Field
  deriving DecidableEq, Repr, Inhabited

inductive PartKind where
  | text
  | array (type : ScalarType)
  | subStream
  deriving DecidableEq, Repr, Inhabited

/-- a named container of a dynamic message -/
structure Part where
  name : String
  kind : PartKind
  offset : Nat
  deriving DecidableEq, Repr, Inhabited

structure DynamicMessage where
  id : UInt32
  parts : List Part
  deriving DecidableEq, Repr, Inhabited

structure ChunkedMessage where
  id : UInt32
  shape : ChunkShape
  deriving DecidableEq, Repr, Inhabited

inductive Message where
  | static (m : StaticMessage)
  | dynamic (m : DynamicMessage)
  | chunked (m : ChunkedMessage)
  deriving DecidableEq, Repr, Inhabited

namespace Message

def id : Message → UInt32
  | static m => m.id
  | dynamic m => m.id
  | chunked m => m.id

def kind : Message → SchemaKind
  | static _ => .static
  | dynamic _ => .dynamic
  | chunked _ => .chunked

def schema (m : Message) : Schema := ⟨m.kind, m.id⟩

def layout : Message → Layout
  | static m => .static m.size
  | dynamic _ => .dynamic
  | chunked m => .chunked m.shape

end Message

namespace Content

/-- whether the entries are messages of type `m` -/
def isOf (c : Content) (m : Message) : Bool := c.schema == some m.schema

def isEmptyOrOf (c : Content) (m : Message) : Bool := c.isEmpty || c.isOf m

end Content

namespace OrderedMessage

def isOf (entry : OrderedMessage) (m : Message) : Bool := entry.id == m.id

/-- the payload, if the entry is a message of type `m` -/
def payload? (entry : OrderedMessage) (m : Message) : Option Bytes :=
  if entry.isOf m then some entry.payload else none

/-- the payload of an entry that must be a message of type `m` -/
def payloadAs (entry : OrderedMessage) (m : Message) : Except Fault Bytes :=
  if entry.isOf m then .ok entry.payload else .error .wrongMessageType

end OrderedMessage

/-! ## opening streams -/

inductive Target where
  | message (m : Message)
  | mixed
  deriving DecidableEq, Repr, Inhabited

namespace Target

def schema : Target → Schema
  | message m => m.schema
  | mixed => .ordered

def layout : Target → Layout
  | message m => m.layout
  | mixed => .ordered

/-- entries of no bytes cannot be told apart -/
def check : Target → Except Fault Unit
  | message (.static m) => if m.size = 0 then .error .emptyStaticMessage else .ok ()
  | _ => .ok ()

/-- the source with its schema bound -/
def bind (t : Target) (source : Source) : Except Failure Source :=
  match t.check with
  | .error f => .error (.fault f)
  | .ok () => (source.bind t.schema).mapError .error

end Target

namespace MessageStream

/-- prepares a stream for entries of the target -/
def openAs (t : Target) : StreamM Unit :=
  match t.check with
  | .error f => fault f
  | .ok () => adopt t.schema

end MessageStream
end TaggedStream
