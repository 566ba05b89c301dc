import TaggedStream.Content

/-!
# Entries

An entry is the region of a stream that one message occupies. Reading it leaves it alone;
writing goes through `EntryM`, which keeps what was written before a fault.

* `Entry.region`, `Entry.read`, `Entry.tail`       parts of an entry
* `Entry.overwrite`, `Entry.fill`, `Entry.write`   the entry with a part replaced
* `EntryM`            steps on an entry; a fault keeps the bytes written so far
* `EntryM.attempt`    a step whose fault is an answer
* `EntryM.within`     steps on a part of the entry
-/

namespace TaggedStream
namespace Entry

/-! ## reading -/

def region (e : Bytes) (offset len : Nat) : Except Fault Bytes :=
  if offset + len ≤ e.length then .ok (e.slice offset len)
  else .error (.entryBounds offset len e.length)

def read (e : Bytes) (t : ScalarType) (offset : Nat) : Except Fault t.Value :=
  (region e offset t.size).map t.decode

def readWord (e : Bytes) (offset : Nat) : Except Fault UInt32 :=
  if offset + 4 ≤ e.length then .ok (e.word offset) else .error (.entryBounds offset 4 e.length)

/-- everything from `offset` on -/
def tail (e : Bytes) (offset : Nat) : Except Fault Bytes :=
  if offset ≤ e.length then .ok (e.drop offset) else .error (.entryBounds offset 0 e.length)

/-! ## writing -/

def overwrite (e : Bytes) (offset : Nat) (data : Bytes) : Except Fault Bytes :=
  if offset + data.length ≤ e.length then .ok (e.splice offset data)
  else .error (.entryBounds offset data.length e.length)

def fill (e : Bytes) (offset len : Nat) (x : UInt8) : Except Fault Bytes :=
  if offset + len ≤ e.length then .ok (e.splice offset (List.replicate len x))
  else .error (.entryBounds offset len e.length)

def write (e : Bytes) (t : ScalarType) (offset : Nat) (v : t.Value) : Except Fault Bytes :=
  overwrite e offset (t.encode v)

def writeWord (e : Bytes) (offset : Nat) (w : UInt32) : Except Fault Bytes :=
  overwrite e offset (Bytes.ofWord w)

theorem length_of_overwrite {e e' data : Bytes} {offset : Nat}
    (h : overwrite e offset data = .ok e') : e'.length = e.length := by
  unfold overwrite at h
  split at h
  · rename_i hle
    cases h
    exact Bytes.length_splice hle
  · cases h

end Entry

abbrev EntryM := EStateM Fault Bytes

namespace EntryM

/-- a read of the entry as a step -/
def query (f : Bytes → Except Fault α) : EntryM α := fun e =>
  match f e with
  | .ok a => .ok a e
  | .error fault => .error fault e

/-- a write as a step: all of it or, on a fault, nothing -/
def update (f : Bytes → Except Fault Bytes) : EntryM Unit := fun e =>
  match f e with
  | .ok next => .ok () next
  | .error fault => .error fault e

/-- the step with its fault as an answer: it never fails itself -/
def attempt (m : EntryM α) : EntryM (Except Fault α) := fun e =>
  match m e with
  | .ok a e' => .ok (.ok a) e'
  | .error fault e' => .ok (.error fault) e'

/-- steps on the region of `len` bytes at `offset`, seen as an entry of its own -/
def within (offset len : Nat) (m : EntryM α) : EntryM α := fun e =>
  if offset + len ≤ e.length then
    match m (e.slice offset len) with
    | .ok a part => .ok a (e.splice offset part)
    | .error fault part => .error fault (e.splice offset part)
  else .error (.entryBounds offset len e.length) e

end EntryM
end TaggedStream
