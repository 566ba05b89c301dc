import TaggedStream.Message

/-!
# Reading streams as messages

The data that a reader gets out of a stream, nested streams included.

* `Record`     one entry as its message type shows it
* `Record.ofMessage`, `CallRecord.ofContent`   reading a payload, and a whole stream; they call
               each other, and end because a nested stream is shorter than the payload it is in
* `Query`      what to read, and with how much care
* `Query.run`  the reader, `Reading` its answer
-/

namespace TaggedStream

mutual

/-- one entry, read field by field -/
inductive Record where
  | static (bytes : Bytes) (values : List Scalar)
  | dynamic (bytes : Bytes) (parts : List (String × PartValue))
  | chunked (declared mask : UInt32) (base : Bytes) (chunks : List (Option Bytes))
  | ordered (entry : OrderedMessage)
  | faulty (f : Fault)

inductive PartValue where
  | text (v : Except StreamError String)
  | array (v : Except StreamError (List Scalar))
  | subStream (v : Except StreamError (Option Nested))

/-- a sub-stream, and what its own entries read as if its schema is known -/
inductive Nested where
  | mk (content : Content) (calls : Option (List CallRecord))

/-- one call of a checked run, with the number of items up to then -/
inductive CallRecord where
  | item (r : Record) (decoded : Nat)
  | ended (decoded : Nat)
  | failed (e : StreamError) (decoded : Nat)

end

/-- what a sub-stream of a given schema is opened as, if it is known -/
abbrev Resolver := Schema → Option Target

def StaticMessage.record (m : StaticMessage) (payload : Bytes) : Record :=
  match m.fields.mapM fun f => (Entry.read payload f.type f.offset).map (Scalar.mk f.type) with
  | .ok values => .static payload values
  | .error f => .faulty f

/-- the chunks are read before the header, so a fault in one of them comes first -/
def ChunkedMessage.record (m : ChunkedMessage) (payload : Bytes) : Record :=
  let read : Except Fault Record := do
    let chunks ← (List.range m.shape.chunkSizes.length).mapM fun i =>
      m.shape.chunk? payload (UInt32.ofNat (1 <<< i))
    let declared ← ChunkShape.declaredSize payload
    let mask ← ChunkShape.mask payload
    let base ← m.shape.base payload
    return .chunked declared mask base chunks
  match read with
  | .ok r => r
  | .error f => .faulty f

-- the measure puts a stream before its entries and an entry before its parts
mutual

def Record.ofMessage (resolve : Resolver) (m : Message) (payload : Bytes) : Record :=
  match m with
  | .static m => m.record payload
  | .chunked m => m.record payload
  | .dynamic m =>
    .dynamic payload (m.parts.map fun p => (p.name, PartValue.ofPart resolve p payload))
termination_by 3 * payload.length + 1

def PartValue.ofPart (resolve : Resolver) (p : Part) (payload : Bytes) : PartValue :=
  match p.kind with
  | .text => .text (Container.string? payload p.offset)
  | .array t => .array ((Container.array? payload t p.offset).map (·.toList.map (Scalar.mk t)))
  | .subStream =>
    match h : Container.subStream? payload p.offset with
    | .error e => .subStream (.error e)
    | .ok none => .subStream (.ok none)
    | .ok (some content) =>
      have := Container.length_body_of_subStream? h
      match content.schema.bind resolve with
      | some t => .subStream (.ok (some (.mk content (CallRecord.ofContent resolve t content))))
      | none => .subStream (.ok (some (.mk content none)))
termination_by 3 * payload.length

def CallRecord.ofContent (resolve : Resolver) (t : Target) (content : Content) :
    List CallRecord :=
  match t with
  | .mixed =>
    (Checked.start .ordered content.body content.count).calls.map fun
      | ⟨.ok (some entry), n⟩ => .item (.ordered entry) n
      | ⟨.ok none, n⟩ => .ended n
      | ⟨.error e, n⟩ => .failed e n
  | .message m =>
    (Checked.start m.layout content.body content.count).calls.attach.map fun
      | ⟨⟨.ok (some item), n⟩, h⟩ =>
        have : (m.layout.payload item).length ≤ content.body.length :=
          Checked.length_payload_of_mem_calls h
        .item (Record.ofMessage resolve m (m.layout.payload item)) n
      | ⟨⟨.ok none, n⟩, _⟩ => .ended n
      | ⟨⟨.error e, n⟩, _⟩ => .failed e n
termination_by 3 * content.body.length + 2

end

def Record.ofItem (resolve : Resolver) : (t : Target) → t.layout.Item → Record
  | .mixed, entry => .ordered entry
  | .message m, item => Record.ofMessage resolve m (m.layout.payload item)

/-- one call of a checked run, its item rendered -/
def CallRecord.ofCall {l : Layout} (render : l.Item → Record) : Checked.Call l → CallRecord
  | ⟨.ok (some i), n⟩ => .item (render i) n
  | ⟨.ok none, n⟩ => .ended n
  | ⟨.error e, n⟩ => .failed e n

theorem CallRecord.ofContent_eq (resolve : Resolver) (t : Target) (content : Content) :
    ofContent resolve t content =
      (Checked.start t.layout content.body content.count).calls.map
        (ofCall (Record.ofItem resolve t)) := by
  cases t with
  | mixed =>
    rw [ofContent]
    apply List.map_congr_left
    rintro ⟨_ | (_ | _), _⟩ _ <;> rfl
  | message m =>
    rw [ofContent]
    refine Eq.trans ?_ (congrArg (List.map _) (List.attach_map_subtype_val _))
    rw [List.map_map]
    apply List.map_congr_left
    rintro ⟨⟨_ | (_ | _), _⟩, _⟩ _ <;> rfl

/-! ## static entries by index -/

def StaticMessage.entryCount (m : StaticMessage) (body : Bytes) : Nat := body.length / m.size

def StaticMessage.entryAt? (m : StaticMessage) (body : Bytes) (i : Nat) : Option Bytes :=
  if (i + 1) * m.size ≤ body.length then some (body.slice (i * m.size) m.size) else none

/-! ## mixed entries by type -/

/-- named message types, tried in this order -/
abbrev DispatchTable := List (String × Message)

/-- the first variant whose message type the entry has, and the entry's payload as that -/
def DispatchTable.dispatch? (table : DispatchTable) (entry : OrderedMessage) :
    Option (String × Message × Except Fault Bytes) :=
  (table.find? fun v => entry.isOf v.2).map fun (name, m) => (name, m, entry.payloadAs m)

def Record.ofPayload (resolve : Resolver) (m : Message) : Except Fault Bytes → Record
  | .ok payload => Record.ofMessage resolve m payload
  | .error f => .faulty f

/-- one mixed entry, seen as a message type that it may or may not have -/
structure Probe where
  id : UInt32
  isOf : Bool
  tried : Option Record
  got : Option Record

def Probe.ofEntry (resolve : Resolver) (m : Message) (entry : OrderedMessage) : Probe where
  id := entry.id
  isOf := entry.isOf m
  tried := (entry.payload? m).map (Record.ofMessage resolve m)
  got := if entry.isOf m then some (Record.ofPayload resolve m (entry.payloadAs m)) else none

/-! ## queries -/

inductive Tier where
  | lenient
  | checked
  | trusting
  deriving DecidableEq, Repr, Inhabited

inductive Query where
  | entries (t : Target) (tier : Tier)
  | entriesAt (m : StaticMessage) (indices : List Nat)
  | dispatch (table : DispatchTable)
  | probe (m : Message)
  deriving DecidableEq, Repr, Inhabited

inductive Findings where
  /-- the items, the bound on those to come before the first and after each, and whether there
  was another after the end -/
  | lenient (items : List Record) (bounds : List Nat) (again : Bool)
  | checked (calls : List CallRecord)
  /-- the items with the place after each -/
  | trusting (items : List (Record × Cursor)) (stop : Stop)
  | entriesAt (items : List (Option Record)) (count : Nat)
  | dispatch (items : List (String × Record))
  | probe (items : List Probe)

/-- the source's schema and count once it is bound, and what was read -/
structure Reading where
  schema : Option Schema
  count : UInt32
  findings : Findings

namespace Query

def target : Query → Target
  | entries t _ => t
  | entriesAt m _ => .message (.static m)
  | dispatch _ => .mixed
  | probe _ => .mixed

/-- the entries that the lenient tier finds -/
def orderedItems (content : Content) : List OrderedMessage :=
  (Lenient.start .ordered content.body content.count).drain.1.map (·.1)

def findings (resolve : Resolver) (content : Content) : Query → Findings
  | entries t .lenient =>
    let start := Lenient.start t.layout content.body content.count
    let (found, last) := start.drain
    .lenient (found.map fun (item, _) => Record.ofItem resolve t item)
      (start.upperBound :: found.map fun (_, after) => after.upperBound)
      last.next.1.isSome
  | entries t .checked => .checked (CallRecord.ofContent resolve t content)
  | entries t .trusting =>
    let (found, stop) := t.layout.explore (.start content.body)
    .trusting (found.map fun (item, after) => (Record.ofItem resolve t item, after)) stop
  | entriesAt m indices =>
    .entriesAt (indices.map fun i => (m.entryAt? content.body i).map m.record)
      (m.entryCount content.body)
  | dispatch table =>
    .dispatch ((orderedItems content).filterMap fun entry =>
      (table.dispatch? entry).map fun (name, m, payload) =>
        (name, Record.ofPayload resolve m payload))
  | probe m => .probe ((orderedItems content).map (Probe.ofEntry resolve m))

/-- binds the source and reads it; a source that cannot be bound stays as it is -/
def run (resolve : Resolver) (q : Query) (source : Source) : Except Failure Reading × Source :=
  match q.target.bind source with
  | .error f => (.error f, source)
  | .ok bound =>
    let content := bound.toContent
    (.ok ⟨content.schema, content.count, q.findings resolve content⟩, bound)

end Query

/-- what a sub-stream's own entries read as -/
def Nested.reading? : Nested → Option Reading
  | .mk content calls => calls.map fun calls => ⟨content.schema, content.count, .checked calls⟩

end TaggedStream
