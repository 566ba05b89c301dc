import TaggedStream.Scalar

/-!
# Stream contents and their wire image

The content of a stream is its schema, its entry count and its body. On the wire it is a header
of nine bytes followed by the body: the kind of the schema, its id, the count.

* `Header`              schema and count; `encode`, `decode`
* `Content`             a header's data with the body
* `Content.toWire`, `Content.ofWire`   the image of a content, and back
-/

namespace TaggedStream

structure Header where
  schema : Option Schema
  count : UInt32
  deriving DecidableEq, Repr, Inhabited

namespace Header

def size : Nat := 9

/-- an unset schema has kind 0 and id 0 -/
def encode (h : Header) : Bytes :=
  match h.schema with
  | some schema =>
    UInt8.ofNat schema.kind.number.toNat :: (Bytes.ofWord schema.id ++ Bytes.ofWord h.count)
  | none => 0 :: (Bytes.ofWord 0 ++ Bytes.ofWord h.count)

/-- the schema named by a kind byte and an id; kind 0 drops the id -/
def schema? (kind id : UInt32) : Except StreamError (Option Schema) :=
  if kind = 0 then .ok none
  else match SchemaKind.ofNumber? kind with
    | some known => .ok (some ⟨known, id⟩)
    | none => .error (.unknownSchemaKind kind)

/-- the header at the front of an image, and what follows it -/
def decode (image : Bytes) : Except StreamError (Header × Bytes) :=
  if image.length < size then .error (.shortOf 0 size image.length)
  else
    let kind := (image.headD 0).toUInt32
    (schema? kind (image.word 1)).map fun schema => (⟨schema, image.word 5⟩, image.drop size)

theorem length_encode (h : Header) : h.encode.length = size := by
  obtain ⟨schema, count⟩ := h
  cases schema <;> simp [encode, size, Bytes.ofWord, Bytes.length_ofNat]

end Header

structure Content where
  schema : Option Schema
  count : UInt32
  body : Bytes
  deriving DecidableEq, Repr, Inhabited

namespace Content

def isEmpty (c : Content) : Bool := c.count == 0

def header (c : Content) : Header := ⟨c.schema, c.count⟩

def toWire (c : Content) : Bytes := c.header.encode ++ c.body

def ofWire (image : Bytes) : Except StreamError Content :=
  (Header.decode image).map fun (h, body) => ⟨h.schema, h.count, body⟩

end Content
end TaggedStream
