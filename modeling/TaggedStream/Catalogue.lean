import TaggedStream.Reading

/-!
# The message catalogue

The message types known by name, and what is built from them.

* `Catalogue.messages`         all types
* `Catalogue.resolve`          the targets that sub-streams are opened as
* `Catalogue.dispatchTables`   the variants mixed entries are sorted into
-/

namespace TaggedStream.Catalogue

/-! ## static messages -/

def counter : StaticMessage := ⟨0, 4, [⟨.u32, 0⟩]⟩
def sample : StaticMessage := ⟨1, 8, [⟨.u64, 0⟩]⟩
def pair : StaticMessage := ⟨5, 6, [⟨.u32, 0⟩, ⟨.u16, 4⟩]⟩
def typeA : StaticMessage := ⟨7, 4, [⟨.u32, 0⟩]⟩
/-- the id of `typeA` with another size -/
def typeA2 : StaticMessage := ⟨7, 2, [⟨.u16, 0⟩]⟩
def tick : StaticMessage := ⟨12, 16, [⟨.i64, 0⟩, ⟨.f64, 8⟩]⟩
def mixed : StaticMessage := ⟨13, 12, [⟨.i8, 0⟩, ⟨.i16, 1⟩, ⟨.i32, 3⟩, ⟨.f32, 7⟩, ⟨.u8, 11⟩]⟩
def byte : StaticMessage := ⟨100, 1, [⟨.u8, 0⟩]⟩
/-- the largest id, which the schema of mixed streams has too -/
def odd : StaticMessage := ⟨0xFFFFFFFF, 3, [⟨.u8, 0⟩, ⟨.u16, 1⟩]⟩
/-- no bytes: never a stream of its own, but a possible ordered entry -/
def zero : StaticMessage := ⟨99, 0, []⟩

/-! ## dynamic messages -/

def blob : DynamicMessage := ⟨2, []⟩
def note : DynamicMessage := ⟨9, [⟨"text", .text, 0⟩]⟩
def batch : DynamicMessage :=
  ⟨50, [⟨"name", .text, 0⟩, ⟨"values", .array .u32, 8⟩, ⟨"nested", .subStream, 16⟩]⟩

/-! ## chunked messages -/

def dispatch : ChunkedMessage := ⟨21, ⟨4, [8, 4, 2]⟩⟩
def launch : ChunkedMessage := ⟨40, ⟨4, [8, 8]⟩⟩
def detail : ChunkedMessage := ⟨3, ⟨2, [1, 4, 8, 3]⟩⟩
def bare : ChunkedMessage := ⟨60, ⟨0, []⟩⟩
def gap : ChunkedMessage := ⟨61, ⟨1, [0, 5, 0, 1]⟩⟩
def full : ChunkedMessage := ⟨62, ⟨0, List.replicate 32 1⟩⟩

/-! ## by name -/

def messages : List (String × Message) :=
  [("Counter", .static counter), ("Sample", .static sample), ("Pair", .static pair),
    ("TypeA", .static typeA), ("TypeA2", .static typeA2), ("Tick", .static tick),
    ("Mixed", .static mixed), ("Byte", .static byte), ("Odd", .static odd),
    ("Zero", .static zero),
    ("Blob", .dynamic blob), ("Note", .dynamic note), ("Batch", .dynamic batch),
    ("Dispatch", .chunked dispatch), ("Launch", .chunked launch), ("Detail", .chunked detail),
    ("Bare", .chunked bare), ("Gap", .chunked gap), ("Full", .chunked full)]

def find? (name : String) : Option Message := messages.lookup name

def target? (name : String) : Option Target :=
  if name = "Ordered" then some .mixed else (find? name).map .message

/-- the targets that a sub-stream may be opened as -/
def nestedTargets : List Target :=
  [.message (.static counter), .message (.static sample), .message (.dynamic note),
    .message (.dynamic batch), .message (.chunked dispatch), .mixed]

def resolve : Resolver := fun schema => nestedTargets.find? (·.schema == schema)

def dispatchTables : List (String × DispatchTable) :=
  [("Decoded",
      [("A", .static typeA), ("B", .dynamic note), ("S", .static sample), ("L", .chunked launch),
        ("N", .dynamic batch), ("Z", .static zero)]),
    ("Dup",
      [("First", .static typeA2), ("Second", .static typeA), ("Third", .static byte),
        ("Fourth", .static odd)])]

end TaggedStream.Catalogue
