import TaggedStream.Scalar

/-!
# Growable byte storage

The bytes behind a writable stream. New bytes are zero, offsets never move, and the capacity
grows geometrically; the configuration shows in the capacity alone.

* `Config`             initial capacity and growth factor
* `Storage`            the bytes in use, the capacity, the factor
* `Storage.grownTo`    the capacity reached by repeated multiplication
* `Storage.allocate`   `n` more zero bytes, and the offset where they start
* `read`, `write`, `region`, `overwrite`   access, faulting outside the bytes in use
* `Storage.Op`, `step`, `run`   the operations as data, and runs of them
-/

namespace TaggedStream

/-- the most bytes one allocation can have -/
def maxCapacity : Nat := 0x7FFFFFFFFFFFFFFF

structure Config where
  initialCapacity : Nat := 0
  growthFactor : Nat := 2
  deriving DecidableEq, Repr, Inhabited

namespace Config

/-- a factor below 2 would not grow -/
def withGrowthFactor (c : Config) (factor : Nat) : Config := { c with growthFactor := max factor 2 }

def withInitialCapacity (c : Config) (n : Nat) : Config := { c with initialCapacity := n }

def isDefault (c : Config) : Bool := c == {}

end Config

structure Storage where
  bytes : Bytes
  capacity : Nat
  growthFactor : Nat
  deriving DecidableEq, Repr, Inhabited

namespace Storage

/-- nothing reserved; a factor of 0 counts as 2 -/
def empty : Storage := ⟨[], 0, 0⟩

def ofConfig (c : Config) : Except Fault Storage :=
  if c.initialCapacity ≤ maxCapacity then .ok ⟨[], c.initialCapacity, max c.growthFactor 2⟩
  else .error .capacity

def length (s : Storage) : Nat := s.bytes.length

/-! ## growth -/

/-- `target` multiplied by `factor` until it reaches `required`; the product stays at `maxSize`
once it gets there -/
def grownTo (required factor target : Nat) : Nat :=
  let next := min (target * factor) maxSize
  if target < required ∧ target < next then grownTo required factor next else target
termination_by required - target

def reserve (s : Storage) (required : Nat) : Except Fault Storage :=
  if required ≤ s.capacity then .ok s
  else
    let target := grownTo required (max s.growthFactor 2) (max s.capacity 64)
    if target ≤ maxCapacity then .ok { s with capacity := target } else .error .capacity

def extend (s : Storage) (n : Nat) : Storage :=
  { s with bytes := s.bytes ++ List.replicate n 0 }

def allocate (s : Storage) (n : Nat) : Except Fault (Nat × Storage) :=
  if maxSize < s.length + n then .error .overflow
  else (s.reserve (s.length + n)).map fun grown => (s.length, grown.extend n)

/-- the capacity is kept -/
def clear (s : Storage) : Storage := { s with bytes := [] }

/-! ## access -/

def region (s : Storage) (offset len : Nat) : Except Fault Bytes :=
  if offset + len ≤ s.length then .ok (s.bytes.slice offset len)
  else .error (.storageBounds offset len s.length)

def overwrite (s : Storage) (offset : Nat) (data : Bytes) : Except Fault Storage :=
  if offset + data.length ≤ s.length then .ok { s with bytes := s.bytes.splice offset data }
  else .error (.storageBounds offset data.length s.length)

def read (s : Storage) (t : ScalarType) (offset : Nat) : Except Fault t.Value :=
  (s.region offset t.size).map t.decode

def write (s : Storage) (t : ScalarType) (offset : Nat) (v : t.Value) : Except Fault Storage :=
  s.overwrite offset (t.encode v)

/-! ## operations as data -/

inductive Op where
  | allocate (n : Nat)
  | read (type : ScalarType) (offset : Nat)
  | write (offset : Nat) (value : Scalar)
  | region (offset len : Nat)
  | overwrite (offset : Nat) (data : Bytes)
  | clear
  | dump

inductive Answer where
  | done
  | offset (n : Nat)
  | scalar (value : Scalar)
  | bytes (b : Bytes)

def apply (s : Storage) : Op → Except Fault (Answer × Storage)
  | .allocate n => (s.allocate n).map fun (offset, next) => (.offset offset, next)
  | .read type offset => (s.read type offset).map fun v => (.scalar ⟨type, v⟩, s)
  | .write offset value => (s.write value.type offset value.value).map (Answer.done, ·)
  | .region offset len => (s.region offset len).map fun b => (.bytes b, s)
  | .overwrite offset data => (s.overwrite offset data).map (Answer.done, ·)
  | .clear => .ok (.done, s.clear)
  | .dump => .ok (.bytes s.bytes, s)

/-- one operation; a fault leaves the storage as it was -/
def step (s : Storage) (op : Op) : Except Fault Answer × Storage :=
  match s.apply op with
  | .ok (answer, next) => (.ok answer, next)
  | .error f => (.error f, s)

/-- a run of operations: each answer with the storage after it -/
def run (s : Storage) : List Op → List (Except Fault Answer × Storage)
  | [] => []
  | op :: ops => s.step op :: (s.step op).2.run ops

end Storage
end TaggedStream
