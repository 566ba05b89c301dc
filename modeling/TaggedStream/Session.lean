import TaggedStream.Append

/-!
# Sessions

A session holds streams under names and carries out one command after the other. What a command
did before it failed stays done.

* `Register`         a writable or a frozen stream
* `Session`          registers by name; `get?`, `set`, `erase`
* `Command`, `Reply` a command and what it answers
* `Session.step`, `Session.run`   one command, and a run that no failure stops
-/

namespace TaggedStream

inductive Register where
  | writable (s : MessageStream)
  | frozen (s : FrozenStream)
  deriving DecidableEq, Repr, Inhabited

namespace Register

def content : Register → Content
  | writable s => s.content
  | frozen s => s.content

def version : Register → UInt32
  | writable s => s.version
  | frozen s => s.version

end Register

/-- later bindings of a name come first -/
structure Session where
  registers : List (String × Register) := []

namespace Session

def get? (s : Session) (name : String) : Option Register := s.registers.lookup name

def erase (s : Session) (name : String) : Session :=
  ⟨s.registers.filter fun r => r.1 != name⟩

def set (s : Session) (name : String) (r : Register) : Session :=
  ⟨(name, r) :: (s.erase name).registers⟩

theorem get?_set_self (s : Session) (name : String) (r : Register) :
    (s.set name r).get? name = some r := by
  simp [get?, set]

end Session

/-! ## commands -/

/-- how a reader holds the stream of a register -/
inductive Borrow where
  | exclusive
  | shared
  | content
  deriving DecidableEq, Repr, Inhabited

inductive Command where
  /-- a new writable stream; without a configuration nothing is configured at all -/
  | create (reg : String) (schema : Option Schema) (config : Option Config)
  | ofBytes (dest : String) (schema : Schema) (count : UInt32) (body : Bytes)
  | ofWire (dest : String) (image : Bytes)
  | freeze (reg dest : String)
  | intoFrozen (reg dest : String)
  | swap (reg other : String)
  | setSchema (reg : String) (schema : Schema)
  | clear (reg : String)
  | setVersion (reg : String) (version : UInt32)
  | append (reg : String) (a : Append)
  | isOf (reg : String) (m : Message)
  | dump (reg : String)
  | read (reg : String) (borrow : Borrow) (q : Query)
  | toWire (reg : String)

inductive Reply where
  | done
  | schema (s : Schema)
  | appended (a : Appended)
  | flags (a b : Bool)
  | bytes (b : Bytes)
  | reading (r : Except Failure Reading)

/-- why a command gives no reply -/
inductive Refusal where
  | failure (f : Failure)
  /-- no stream of the right kind under that name -/
  | register (name : String)

namespace Session

def failing (s : Session) (f : Failure) : Except Refusal Reply × Session :=
  (.error (.failure f), s)

def noRegister (s : Session) (name : String) : Except Refusal Reply × Session :=
  (.error (.register name), s)

/-- steps on the writable stream of a register -/
def onWritable (s : Session) (reg : String) (m : StreamM Reply) :
    Except Refusal Reply × Session :=
  match s.get? reg with
  | some (.writable stream) =>
    match m stream with
    | .ok reply next => (.ok reply, s.set reg (.writable next))
    | .error f next => (.error (.failure f), s.set reg (.writable next))
  | _ => s.noRegister reg

/-- a reply from what a register holds -/
def ask (s : Session) (reg : String) (answer : Register → Reply) :
    Except Refusal Reply × Session :=
  match s.get? reg with
  | some r => (.ok (answer r), s)
  | none => s.noRegister reg

/-- the source that a reader of a register gets -/
def source (r : Register) (borrow : Borrow) : Source :=
  match r, borrow with
  | r, .content => .content r.content
  | .writable s, .exclusive => .exclusive s
  | .writable s, _ => .shared s
  | .frozen s, _ => .frozen s

def step (resolve : Resolver) (s : Session) : Command → Except Refusal Reply × Session
  | .create reg schema config =>
    let made := match config with
      | some c => MessageStream.ofConfig c
      | none => .ok .empty
    match made with
    | .error f => s.failing (.fault f)
    | .ok stream =>
      let stream := match schema with
        | some schema => stream.withSchema schema
        | none => stream
      (.ok .done, s.set reg (.writable stream))
  | .ofBytes dest schema count body =>
    (.ok .done, s.set dest (.frozen ⟨⟨some schema, count, body⟩, 0⟩))
  | .ofWire dest image =>
    match FrozenStream.ofWire image with
    | .error e => s.failing (.error e)
    | .ok frozen => (.ok .done, s.set dest (.frozen frozen))
  | .freeze reg dest =>
    match s.get? reg with
    | some (.writable stream) => (.ok .done, s.set dest (.frozen stream.freeze))
    | _ => s.noRegister reg
  | .intoFrozen reg dest =>
    match s.get? reg with
    | some (.writable stream) => (.ok .done, (s.erase reg).set dest (.frozen stream.freeze))
    | _ => s.noRegister reg
  | .swap reg other =>
    match s.get? reg, s.get? other with
    | some (.writable a), some (.writable b) =>
      match a.swap b with
      | .ok (a, b) => (.ok .done, (s.set reg (.writable a)).set other (.writable b))
      | .error e => s.failing (.error e)
    | some (.writable _), _ => s.noRegister other
    | _, _ => s.noRegister reg
  | .setSchema reg schema => s.onWritable reg do
    MessageStream.adopt schema
    return .schema schema
  | .clear reg => s.onWritable reg do
    modify MessageStream.clear
    return .done
  | .setVersion reg version => s.onWritable reg do
    modify (·.withVersion version)
    return .done
  | .append reg a => s.onWritable reg do return .appended (← MessageStream.append resolve a)
  | .isOf reg m => s.ask reg fun r => .flags (r.content.isOf m) (r.content.isEmptyOrOf m)
  | .dump reg => s.ask reg fun r => .bytes r.content.body
  | .read reg borrow q =>
    match s.get? reg with
    | some r =>
      match q.run resolve (source r borrow) with
      | (reading, .exclusive bound) => (.ok (.reading reading), s.set reg (.writable bound))
      | (reading, _) => (.ok (.reading reading), s)
    | none => s.noRegister reg
  | .toWire reg =>
    match s.get? reg with
    | some (.frozen stream) => (.ok (.bytes stream.toWire), s)
    | _ => s.noRegister reg

/-- a run of commands: each reply with the session after it -/
def run (resolve : Resolver) (s : Session) : List Command → List (Except Refusal Reply × Session)
  | [] => []
  | c :: cs => s.step resolve c :: (s.step resolve c).2.run resolve cs

end Session
end TaggedStream
