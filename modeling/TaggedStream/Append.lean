import TaggedStream.Chunk.Script

/-!
# Appending entries

How a writable stream gets a new entry: the storage grows, the count goes up, the header of the
layout is written, and the payload is left zero for the caller to fill.

* `MessageStream.addStatic`, `addDynamic`, `addOrdered`, `addChunked`   a new entry and its slot
* `Request`                 an entry whose size and first contents the caller prescribes; it is
                            asked for the size twice
* `Append`                  every way to add an entry, as data, with the steps that fill it
* `MessageStream.append`    opens the stream as the right target, adds the entry and fills it
-/

namespace TaggedStream
namespace MessageStream

/-! ## new entries -/

def addStatic (m : StaticMessage) : StreamM Slot := allocate m.size

/-- the slot of the payload, behind its size -/
def addDynamic (size : Nat) : StreamM Slot :=
  if maxWord < size then fault (.dynamicTooLarge size)
  else do
    let slot ← allocate (4 + size)
    within ⟨slot.offset, 4⟩ (EntryM.update (Entry.writeWord · 0 (UInt32.ofNat size)))
    return ⟨slot.offset + 4, size⟩

/-- the slot of the payload, behind its id and size -/
def addOrdered (id : UInt32) (size : Nat) : StreamM Slot :=
  if maxWord < size then fault (.orderedTooLarge size)
  else do
    let slot ← allocate (8 + size)
    within ⟨slot.offset, 8⟩ do
      EntryM.update (Entry.writeWord · 0 id)
      EntryM.update (Entry.writeWord · 4 (UInt32.ofNat size))
    return ⟨slot.offset + 8, size⟩

/-- the slot of the whole entry, header included -/
def addChunked (c : ChunkShape) (mask : UInt32) : StreamM Slot :=
  if c.declares mask then do
    let size := c.entrySize mask
    let slot ← allocate size
    within slot do
      EntryM.update (Entry.writeWord · 0 (UInt32.ofNat size))
      EntryM.update (Entry.writeWord · 4 mask)
    return slot
  else fault (.chunkMaskUndeclared mask)

end MessageStream

/-! ## requests -/

/-- what a request does to its entry: `defaults` once, `patch` before and after the caller's
own steps -/
structure Hooks where
  defaults : List Entry.Op
  patch : List Entry.Op

/-- what a request says the size of its entry is: `size` before there is an entry, `again` when it
has got one -/
structure SizeAnswers where
  size : Nat
  again : Nat

/-- the same answer both times -/
instance : Coe Nat SizeAnswers := ⟨fun n => ⟨n, n⟩⟩

structure Request extends SizeAnswers where
  id : UInt32
  hooks : Option Hooks

/-- an entry of fixed size, left as it is -/
def Request.fixed (m : StaticMessage) : Request := ⟨m.size, m.id, none⟩

/-- the entry must have the size that the request asks for by then -/
def Request.confirm (r : Request) (length : Nat) : EntryM Unit :=
  if length = r.again then pure () else throw .requestSize

inductive Phase where
  | default
  | patch
  deriving DecidableEq, Repr, Inhabited

structure HookRun where
  phase : Phase
  results : List Entry.Result

/-- the caller's steps on the entry, and the runs of the hooks around them -/
def Request.fill (resolve : Resolver) (r : Request) (ops : List Entry.Op) :
    EntryM (List Entry.Result × Option (List HookRun)) :=
  match r.hooks with
  | none => do return (← Entry.script resolve ops, none)
  | some h => do
    let defaults ← Entry.script resolve h.defaults
    let before ← Entry.script resolve h.patch
    let results ← Entry.script resolve ops
    let after ← Entry.script resolve h.patch
    return (results, some [⟨.default, defaults⟩, ⟨.patch, before⟩, ⟨.patch, after⟩])

/-! ## appending -/

inductive Append where
  /-- bytes of no layout, whatever the schema -/
  | raw (size : Nat) (ops : List Entry.Op)
  | static (m : StaticMessage) (ops : List Entry.Op)
  | dynamic (m : DynamicMessage) (size : Nat) (ops : List Entry.Op)
  | dynamicBytes (m : DynamicMessage) (payload : Bytes)
  | ordered (m : StaticMessage) (ops : List Entry.Op)
  | staticWith (m : StaticMessage) (r : Request) (ops : List Entry.Op)
  | dynamicWith (m : DynamicMessage) (r : Request) (ops : List Entry.Op)
  | orderedWith (r : Request) (ops : List Entry.Op)
  | chunked (m : ChunkedMessage) (mask : UInt32) (ops : List ChunkShape.Op)

inductive Appended where
  | stored
  /-- an entry of that length, the steps on it, and the hooks of its request -/
  | entry (length : Nat) (results : List Entry.Result) (log : Option (List HookRun))
  | chunked (results : List (Except Fault ChunkShape.Answer))

namespace MessageStream

/-- the caller's steps on a new entry -/
def fillEntry (resolve : Resolver) (slot : Slot) (ops : List Entry.Op) : StreamM Appended :=
  within slot (do return .entry slot.length (← Entry.script resolve ops) none)

/-- the same, between the hooks of a request, which first asks for the size of its entry again -/
def fillRequest (resolve : Resolver) (slot : Slot) (r : Request) (ops : List Entry.Op) :
    StreamM Appended :=
  within slot do
    r.confirm slot.length
    let (results, log) ← r.fill resolve ops
    return .entry slot.length results log

def append (resolve : Resolver) : Append → StreamM Appended
  | .raw size ops => do fillEntry resolve (← allocate size) ops
  | .static m ops => do
    openAs (.message (.static m))
    fillEntry resolve (← addStatic m) ops
  | .dynamic m size ops => do
    openAs (.message (.dynamic m))
    fillEntry resolve (← addDynamic size) ops
  | .dynamicBytes m payload => do
    openAs (.message (.dynamic m))
    let slot ← addDynamic payload.length
    within slot (EntryM.update (Entry.overwrite · 0 payload))
    return .stored
  | .ordered m ops => do
    openAs .mixed
    fillEntry resolve (← addOrdered m.id m.size) ops
  | .staticWith m r ops => do
    openAs (.message (.static m))
    if r.size = m.size then
      fillRequest resolve (← addStatic m) r ops
    else
      fault .staticRequestSize
  | .dynamicWith m r ops => do
    openAs (.message (.dynamic m))
    fillRequest resolve (← addDynamic r.size) r ops
  | .orderedWith r ops => do
    openAs .mixed
    fillRequest resolve (← addOrdered r.id r.size) r ops
  | .chunked m mask ops => do
    openAs (.message (.chunked m))
    let slot ← addChunked m.shape mask
    within slot (do return .chunked (← m.shape.run resolve ops))

end MessageStream
end TaggedStream
