import TaggedStream.Reading

/-!
# Entry scripts

The operations on an entry as data, and runs of them. A step that fails does not stop the run;
it keeps what it wrote before it failed.

* `Entry.Op`, `Entry.Answer`   an operation and what it answers
* `Entry.perform`              one operation
* `Entry.run`, `Entry.script`  operations one after the other, each with the entry after it
-/

namespace TaggedStream.Entry

inductive Op where
  | read (type : ScalarType) (offset : Nat)
  | write (offset : Nat) (value : Scalar)
  | region (offset len : Nat)
  | tail (offset : Nat)
  | overwrite (offset : Nat) (data : Bytes)
  | fill (offset len : Nat) (value : UInt8)
  | length
  | patchArray (field data : Nat) (count : UInt32)
  | patchSubStream (field data : Nat) (size : UInt32)
  | arrayBytes (type : ScalarType) (field : Nat)
  | setArray (field index : Nat) (value : Scalar)
  | writeString (field : Nat) (s : String)
  | storeSubStream (field : Nat) (source : Content)
  | array (type : ScalarType) (field : Nat) (indices : List Nat)
  | string (field : Nat)
  | subStream (field : Nat) (query : Option Query)

inductive Answer where
  | done
  | scalar (value : Scalar)
  | bytes (b : Bytes)
  | length (n : Nat)
  /-- an array and its elements at the indices asked for -/
  | array (type : ScalarType) (a : InlineArray type) (elements : List (Option Scalar))
  | text (s : String)
  /-- a sub-stream, if there is one, and what a query over it found -/
  | subStream (found : Option (Content × Option (Except Failure Reading)))

structure Result where
  outcome : Except Failure Answer
  entry : Bytes

/-- a read of the entry -/
def asking (e : Bytes) (answer : α → Answer) (r : Except Fault α) : Result :=
  ⟨(r.map answer).mapError .fault, e⟩

/-- a read that checks the entry -/
def reading (e : Bytes) (answer : α → Answer) (r : Except StreamError α) : Result :=
  ⟨(r.map answer).mapError .error, e⟩

/-- steps on the entry -/
def acting (e : Bytes) (m : EntryM Unit) : Result :=
  match m e with
  | .ok _ e' => ⟨.ok .done, e'⟩
  | .error f e' => ⟨.error (.fault f), e'⟩

def perform (resolve : Resolver) (e : Bytes) : Op → Result
  | .read type offset => asking e (fun v => .scalar ⟨type, v⟩) (read e type offset)
  | .write offset v => acting e (EntryM.update (write · v.type offset v.value))
  | .region offset len => asking e .bytes (region e offset len)
  | .tail offset => asking e .bytes (tail e offset)
  | .overwrite offset data => acting e (EntryM.update (overwrite · offset data))
  | .fill offset len value => acting e (EntryM.update (fill · offset len value))
  | .length => ⟨.ok (.length e.length), e⟩
  | .patchArray field data count => acting e (Container.patchArray field data count)
  | .patchSubStream field data size => acting e (Container.patchSubStream field data size)
  | .arrayBytes type field => asking e .bytes (Container.arrayBytes type field e)
  | .setArray field index v => acting e (Container.setArray field index v)
  | .writeString field s => acting e (Container.writeString field s)
  | .storeSubStream field source => acting e (Container.storeSubStream field source)
  | .array type field indices =>
    reading e (fun a => .array type a (indices.map fun i => (a.get? i).map (Scalar.mk type)))
      (Container.array? e type field)
  | .string field => reading e .text (Container.string? e field)
  | .subStream field query =>
    reading e
      (fun found => .subStream (found.map fun content =>
        (content, query.map fun q => (q.run resolve (.content content)).1)))
      (Container.subStream? e field)

def run (resolve : Resolver) (e : Bytes) : List Op → List Result × Bytes
  | [] => ([], e)
  | op :: ops =>
    let first := perform resolve e op
    let (rest, last) := run resolve first.entry ops
    (first :: rest, last)

/-- a whole run as one step, which never fails -/
def script (resolve : Resolver) (ops : List Op) : EntryM (List Result) := fun e =>
  .ok (run resolve e ops).1 (run resolve e ops).2

end TaggedStream.Entry
