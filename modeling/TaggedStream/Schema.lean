/-!
# Schemas

A schema says what the entries of a stream are: the kind of layout and, for a stream of one
message type, the id of that type.

* `SchemaKind`      the four layouts, numbered from 1 on; 0 stands for "no schema yet"
* `Schema`          a kind and an id
* `Schema.ordered`  the schema shared by all streams of mixed messages
-/

namespace TaggedStream

inductive SchemaKind where
  | static
  | dynamic
  | ordered
  | chunked
  deriving DecidableEq, Repr, Inhabited

namespace SchemaKind

def number : SchemaKind → UInt32
  | static => 1
  | dynamic => 2
  | ordered => 3
  | chunked => 4

def ofNumber? (n : UInt32) : Option SchemaKind :=
  if n = 1 then some static
  else if n = 2 then some dynamic
  else if n = 3 then some ordered
  else if n = 4 then some chunked
  else none

def name : SchemaKind → String
  | static => "Static"
  | dynamic => "Dynamic"
  | ordered => "Ordered"
  | chunked => "Chunked"

theorem number_ne_zero (k : SchemaKind) : k.number ≠ 0 := by cases k <;> decide

theorem ofNumber?_number (k : SchemaKind) : ofNumber? k.number = some k := by cases k <;> rfl

theorem number_of_ofNumber? {n : UInt32} {k : SchemaKind} (h : ofNumber? n = some k) :
    k.number = n := by
  unfold ofNumber? at h
  split at h
  · rename_i e; cases h; exact e.symm
  split at h
  · rename_i e; cases h; exact e.symm
  split at h
  · rename_i e; cases h; exact e.symm
  split at h
  · rename_i e; cases h; exact e.symm
  · cases h

end SchemaKind

structure Schema where
  kind : SchemaKind
  id : UInt32
  deriving DecidableEq, Repr, Inhabited

namespace Schema

/-- mixed messages carry their ids entry by entry, so the schema itself names none of them -/
def ordered : Schema := ⟨.ordered, 0xFFFFFFFF⟩

/-- a single-message schema of the given kind and id -/
def isOf (s : Schema) (kind : SchemaKind) (id : UInt32) : Bool := s.kind == kind && s.id == id

def isOrdered (s : Schema) : Bool := s.kind == .ordered

/-- the id of a mixed stream is not shown -/
def text (s : Schema) : String :=
  if s.isOrdered then "Ordered" else s.kind.name ++ "#" ++ toString s.id.toNat

end Schema
end TaggedStream
