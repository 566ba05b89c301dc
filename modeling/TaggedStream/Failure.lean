import TaggedStream.Bytes
import TaggedStream.Hex
import TaggedStream.Schema

/-!
# Errors and faults

Two things can go wrong, and they are kept apart.

* `StreamError`   the bytes or the schema at hand are not what the reader expects
* `Fault`         the caller broke a rule of the interface: an access outside its region, a
                  size that does not fit, an undeclared chunk
* `Failure`       either of them

`StreamError.message` and `Fault.message?` hold all wording.
-/

namespace TaggedStream

inductive StreamError where
  | schemaMismatch (expected actual : Schema)
  | truncated (offset needed available : Nat)
  | malformedEntry (offset size : Nat)
  | countMismatch (expected actual : Nat)
  | unknownSchemaKind (kind : UInt32)
  | invalidUtf8 (offset : Nat)
  | io (context : String)
  deriving DecidableEq, Repr, Inhabited

namespace StreamError

/-- `needed` bytes wanted at `offset` of a region of `length` bytes -/
def shortOf (offset needed length : Nat) : StreamError := truncated offset needed (length - offset)

def message : StreamError → String
  | schemaMismatch expected actual =>
    s!"schema mismatch: stream is {actual.text}, requested {expected.text}"
  | truncated offset needed available =>
    s!"truncated stream at offset {offset}: need {needed} bytes, {available} available"
  | malformedEntry offset size =>
    s!"malformed entry at offset {offset}: declared byte size {size}"
  | countMismatch expected actual =>
    s!"count mismatch: stream declares {expected} entries, decoded {actual}"
  | unknownSchemaKind kind => s!"unknown schema kind {kind}"
  | invalidUtf8 offset => s!"inline string at offset {offset} is not valid UTF-8"
  | io context => s!"I/O error: {context}"

end StreamError

inductive Fault where
  | storageBounds (offset width length : Nat)
  | entryBounds (offset width length : Nat)
  | arrayBeforeHeader
  | stringLength
  | subStreamSize
  | chunkFlagBits
  | chunkFlagUndeclared (flag : UInt32)
  | chunkMaskUndeclared (mask : UInt32)
  | emptyStaticMessage
  | staticRequestSize
  | dynamicTooLarge (size : Nat)
  | orderedTooLarge (size : Nat)
  | wrongMessageType
  /-- a request whose entry has another size than it asks for by then -/
  | requestSize
  /-- an index past the end of a region -/
  | outOfRange
  /-- a sum or product above `maxSize`, or a count above its 32 bits -/
  | overflow
  /-- more bytes than one allocation can have -/
  | capacity
  deriving DecidableEq, Repr, Inhabited

/-- the rule that was broken; the last four causes have no wording -/
def Fault.message? : Fault → Option String
  | storageBounds offset width length =>
    s!"storage access out of bounds: offset {offset} + {width} > length {length}"
  | entryBounds offset width length =>
    s!"entry access out of bounds: offset {offset} + {width} > entry size {length}"
  | arrayBeforeHeader => "array data must follow its header"
  | stringLength => "string length differs from its allocation"
  | subStreamSize => "sub-stream size differs from its allocation"
  | chunkFlagBits => "chunk flag must be a single bit"
  | chunkFlagUndeclared flag => "chunk flag 0x" ++ Hex.ofNat flag.toNat ++ " is not declared"
  | chunkMaskUndeclared mask => "chunk mask 0x" ++ Hex.ofNat mask.toNat ++ " names undeclared chunks"
  | emptyStaticMessage => "static message must have a non-zero size"
  | staticRequestSize => "static request size differs from the message size"
  | dynamicTooLarge size => s!"dynamic entry of {size} bytes exceeds u32 size prefix"
  | orderedTooLarge size => s!"ordered entry of {size} bytes exceeds u32 size field"
  | wrongMessageType => "ordered entry read as the wrong message type"
  | requestSize | outOfRange | overflow | capacity => none

inductive Failure where
  | error (e : StreamError)
  | fault (f : Fault)
  deriving DecidableEq, Repr, Inhabited

end TaggedStream
