import TaggedStream.Proofs.Inline
import TaggedStream.Proofs.Parcels

/-!
# Entries with a name, values and a nested stream

An entry of a batch has a fixed part of three headers, for a string, an array of numbers and a
sub-stream, and the data of the three behind it.  Its request knows their sizes and puts the
headers in, once before the data are written and once after.

* `BatchEntry`, `BatchRequest`   what an entry holds, and the sizes of it
* `BatchEntry.append`            how an entry is added: its request, and the steps that fill it
* `BatchRequest.shaped`          such an entry with its headers in place
* `Entry.Runs`                   steps that all succeed
* `BatchEntry.runs_steps`        the steps of an entry do, and leave its payload
* `BatchEntry.ofPayload_payload` a reader finds in the payload what was written
-/

namespace TaggedStream

/-! ## steps that succeed -/

/-- steps on `e` that all succeed and leave `e'` -/
def Entry.Runs (resolve : Resolver) (ops : List Entry.Op) (e e' : Bytes) : Prop :=
  (∀ r ∈ (run resolve e ops).1, r.outcome = .ok .done) ∧ (run resolve e ops).2 = e'

namespace Entry.Runs

variable {resolve : Resolver} {op : Entry.Op} {ops ops' : List Entry.Op} {e e' e'' : Bytes}

theorem nil : Runs resolve [] e e := ⟨List.forall_mem_nil _, rfl⟩

theorem cons (h : perform resolve e op = ⟨.ok .done, e'⟩) (hs : Runs resolve ops e' e'') :
    Runs resolve (op :: ops) e e'' := by
  have hrun : run resolve e (op :: ops)
      = (⟨.ok .done, e'⟩ :: (run resolve e' ops).1, (run resolve e' ops).2) := by
    rw [run, h]
  refine ⟨?_, by rw [hrun]; exact hs.2⟩
  intro r hr
  rw [hrun] at hr
  rcases List.mem_cons.mp hr with rfl | hr
  · rfl
  · exact hs.1 r hr

/-- a step that calls a writer which succeeds -/
theorem step {m : EntryM Unit} (h : m e = .ok () e') (hop : perform resolve e op = acting e m)
    (hs : Runs resolve ops e' e'') : Runs resolve (op :: ops) e e'' := by
  refine cons ?_ hs
  rw [hop, acting, h]

theorem append (h : Runs resolve ops e e') (h' : Runs resolve ops' e' e'') :
    Runs resolve (ops ++ ops') e e'' := by
  induction ops generalizing e with
  | nil =>
    obtain ⟨-, rfl⟩ := h
    exact h'
  | cons op ops ih =>
    obtain ⟨hall, hlast⟩ := h
    have hop : perform resolve e op = ⟨.ok .done, (perform resolve e op).entry⟩ := by
      rw [← hall _ List.mem_cons_self]
    exact cons hop (ih ⟨fun r hr => hall r (List.mem_cons_of_mem _ hr), hlast⟩)

end Entry.Runs

/-! ## entries and their requests -/

/-- an entry of a batch, its nested stream in whatever form it is at hand -/
structure BatchEntry (α : Type) where
  name : String
  values : List ScalarType.u32.Value
  nested : Option α

/-- the sizes of the variable parts; they follow each other behind the fixed part -/
structure BatchRequest where
  nameLength : Nat
  valueCount : Nat
  nested : Option Content

namespace BatchRequest

/-- the headers of the name, the values and the nested stream -/
def fixedSize : Nat := 36

def nameField : Nat := 0
def valuesField : Nat := 8
def nestedField : Nat := 16

variable (r : BatchRequest)

def valuesAt : Nat := fixedSize + r.nameLength

def nestedAt : Nat := r.valuesAt + r.valueCount * 4

def nestedSize : Nat :=
  match r.nested with
  | none => 0
  | some c => c.body.length

def size : Nat := r.nestedAt + r.nestedSize

/-- the headers; an absent stream gets none -/
def patch : List Entry.Op :=
  .patchArray nameField fixedSize (UInt32.ofNat r.nameLength) ::
  .patchArray valuesField r.valuesAt (UInt32.ofNat r.valueCount) ::
  match r.nested with
  | none => []
  | some _ => [.patchSubStream nestedField r.nestedAt (UInt32.ofNat r.nestedSize)]

def request (m : DynamicMessage) : Request := ⟨r.size, m.id, some ⟨[], r.patch⟩⟩

end BatchRequest

namespace BatchEntry

variable {α β : Type}

def map (f : α → β) (e : BatchEntry α) : BatchEntry β := ⟨e.name, e.values, e.nested.map f⟩

/-- every value in its place, from index `i` on -/
def setValues : (i : Nat) → List ScalarType.u32.Value → List Entry.Op
  | _, [] => []
  | i, v :: values => .setArray BatchRequest.valuesField i ⟨.u32, v⟩ :: setValues (i + 1) values

def store : Option Content → List Entry.Op
  | none => []
  | some c => [.storeSubStream BatchRequest.nestedField c]

variable (e : BatchEntry Content)

def request : BatchRequest := ⟨(Text.encode e.name).length, e.values.length, e.nested⟩

def steps : List Entry.Op :=
  .writeString BatchRequest.nameField e.name :: (setValues 0 e.values ++ store e.nested)

def append (m : DynamicMessage) : Append := .dynamicWith m (e.request.request m) e.steps

end BatchEntry

/-! ## the entry while it is written -/

namespace BatchRequest

open Container (header described)

/-- the header of the nested stream's bytes -/
def nestedHead (r : BatchRequest) : Bytes :=
  match r.nested with
  | none => Bytes.zeros 8
  | some _ => header (8 + (r.nameLength + r.valueCount * 4)) r.nestedSize

/-- an entry with its headers in place; `stream` describes the nested stream -/
def shaped (r : BatchRequest) (stream name values body : Bytes) : Bytes :=
  header 36 r.nameLength ++ header (28 + r.nameLength) r.valueCount ++ stream ++ r.nestedHead
    ++ name ++ values ++ body

theorem length_nestedHead (r : BatchRequest) : r.nestedHead.length = 8 := by
  unfold nestedHead
  split
  · exact Bytes.length_zeros 8
  · exact Container.length_header _ _

/-- parts of the sizes that a request asks for -/
structure Suits (r : BatchRequest) (stream name values body : Bytes) : Prop where
  stream : stream.length = 12
  name : name.length = r.nameLength
  values : values.length = r.valueCount * 4
  body : body.length = r.nestedSize

variable {r : BatchRequest} {stream name values body : Bytes}

/-- the name, seen from its header -/
theorem shaped_name (h : r.Suits stream name values body) : r.shaped stream name values body =
    described [] (header (28 + r.nameLength) r.valueCount ++ stream ++ r.nestedHead) name
      (values ++ body) r.nameLength := by
  have hmid : 8 + (header (28 + r.nameLength) r.valueCount ++ stream ++ r.nestedHead).length
      = 36 := by
    rw [List.length_append, List.length_append, Container.length_header, h.stream,
      length_nestedHead]
  rw [described, hmid, shaped]
  simp only [List.append_assoc, List.nil_append]

/-- the values, seen from theirs -/
theorem shaped_values (h : r.Suits stream name values body) : r.shaped stream name values body =
    described (header 36 r.nameLength) (stream ++ r.nestedHead ++ name) values body
      r.valueCount := by
  have hmid : 8 + (stream ++ r.nestedHead ++ name).length = 28 + r.nameLength := by
    rw [List.length_append, List.length_append, h.stream, length_nestedHead, h.name]
    omega
  rw [described, hmid, shaped]
  simp only [List.append_assoc]

/-- and the nested stream -/
theorem shaped_nested (h : r.Suits stream name values body) {c : Content}
    (hc : r.nested = some c) : r.shaped stream name values body =
    described (header 36 r.nameLength ++ header (28 + r.nameLength) r.valueCount ++ stream)
      (name ++ values) body [] r.nestedSize := by
  have hmid : 8 + (name ++ values).length = 8 + (r.nameLength + r.valueCount * 4) := by
    rw [List.length_append, h.name, h.values]
  have hhead : r.nestedHead = header (8 + (name ++ values).length) r.nestedSize := by
    rw [nestedHead, hc, hmid]
  rw [described, shaped, hhead]
  simp only [List.append_assoc, List.append_nil]

variable {resolve : Resolver}

/-! ### the headers -/

section
variable {first second third : Bytes}

theorem patchArray_name (h : r.Suits stream name values body) (hfirst : first.length = 8)
    (hsecond : second.length = 8) (hthird : third.length = 8) :
    Container.patchArray nameField fixedSize (UInt32.ofNat r.nameLength)
        (first ++ second ++ stream ++ third ++ name ++ values ++ body)
      = .ok () (header 36 r.nameLength ++ second ++ stream ++ third ++ name ++ values ++ body) := by
  have hmid : 8 + (second ++ stream ++ third).length = 36 := by
    rw [List.length_append, List.length_append, hsecond, h.stream, hthird]
  have hpatch := Container.patchArray_described [] (second ++ stream ++ third) name
    (values ++ body) r.nameLength hfirst
  rw [described, hmid] at hpatch
  simp only [List.append_assoc, List.nil_append, List.length_nil, Nat.zero_add] at hpatch ⊢
  exact hpatch

theorem patchArray_values (h : r.Suits stream name values body) (hsecond : second.length = 8)
    (hthird : third.length = 8) :
    Container.patchArray valuesField r.valuesAt (UInt32.ofNat r.valueCount)
        (header 36 r.nameLength ++ second ++ stream ++ third ++ name ++ values ++ body)
      = .ok () (header 36 r.nameLength ++ header (28 + r.nameLength) r.valueCount ++ stream
          ++ third ++ name ++ values ++ body) := by
  have hmid : 8 + (stream ++ third ++ name).length = 28 + r.nameLength := by
    rw [List.length_append, List.length_append, h.stream, hthird, h.name]
    omega
  have hat : 8 + (28 + r.nameLength) = r.valuesAt := by
    unfold valuesAt fixedSize
    omega
  have hpatch := Container.patchArray_described (header 36 r.nameLength)
    (stream ++ third ++ name) values body r.valueCount hsecond
  rw [described, hmid, Container.length_header, hat] at hpatch
  simp only [List.append_assoc] at hpatch ⊢
  exact hpatch

theorem patchSubStream_nested (h : r.Suits stream name values body) (hthird : third.length = 8)
    {c : Content} (hc : r.nested = some c) :
    Container.patchSubStream nestedField r.nestedAt (UInt32.ofNat r.nestedSize)
        (header 36 r.nameLength ++ header (28 + r.nameLength) r.valueCount ++ stream
          ++ third ++ name ++ values ++ body)
      = .ok () (r.shaped stream name values body) := by
  have hlen : (header 36 r.nameLength ++ header (28 + r.nameLength) r.valueCount
      ++ stream).length = nestedField + 12 := by
    rw [List.length_append, List.length_append, Container.length_header,
      Container.length_header, h.stream]
    rfl
  have hat : nestedField + 12 + (8 + (name ++ values).length) = r.nestedAt := by
    rw [List.length_append, h.name, h.values, nestedAt, valuesAt, fixedSize, nestedField]
    omega
  have hpatch := Container.patchSubStream_described
    (header 36 r.nameLength ++ header (28 + r.nameLength) r.valueCount ++ stream)
    (name ++ values) body [] r.nestedSize hlen hthird (by rw [hlen]; decide)
  rw [hlen, hat, ← shaped_nested h hc] at hpatch
  simp only [List.append_assoc, List.append_nil] at hpatch ⊢
  exact hpatch

/-- **The hook puts the headers in**, whatever stood there before. -/
theorem runs_patch (h : r.Suits stream name values body) (hfirst : first.length = 8)
    (hsecond : second.length = 8) (hthird : third.length = 8)
    (hnone : r.nested = none → third = Bytes.zeros 8) :
    Entry.Runs resolve r.patch (first ++ second ++ stream ++ third ++ name ++ values ++ body)
      (r.shaped stream name values body) := by
  refine .step (patchArray_name h hfirst hsecond hthird) rfl
    (.step (patchArray_values h hsecond hthird) rfl ?_)
  cases hn : r.nested with
  | none =>
    have hhead : r.nestedHead = third := by rw [nestedHead, hn, hnone hn]
    rw [shaped, hhead]
    exact .nil
  | some c => exact .step (patchSubStream_nested h hthird hn) rfl .nil

end

/-- the offsets stay within a word if the whole does -/
theorem fits_of_size (hsize : r.size ≤ maxWord) :
    28 + r.nameLength + 8 ≤ maxWord ∧ r.valueCount ≤ maxWord ∧
      8 + (r.nameLength + r.valueCount * 4) ≤ maxWord ∧ r.nestedSize ≤ maxWord := by
  unfold size nestedAt valuesAt fixedSize at hsize
  omega

/-- the blank entry, in parts -/
theorem zeros_size (r : BatchRequest) : Bytes.zeros r.size =
    Bytes.zeros 8 ++ Bytes.zeros 8 ++ Bytes.zeros 12 ++ Bytes.zeros 8 ++ Bytes.zeros r.nameLength
      ++ Bytes.zeros (r.valueCount * 4) ++ Bytes.zeros r.nestedSize := by
  simp only [Bytes.zeros_append]
  exact congrArg Bytes.zeros (by unfold size nestedAt valuesAt fixedSize; omega)

theorem Suits.blank (r : BatchRequest) : r.Suits (Bytes.zeros 12) (Bytes.zeros r.nameLength)
    (Bytes.zeros (r.valueCount * 4)) (Bytes.zeros r.nestedSize) :=
  ⟨Bytes.length_zeros _, Bytes.length_zeros _, Bytes.length_zeros _, Bytes.length_zeros _⟩

/-! ### the parts -/

section
variable (hsize : r.size ≤ maxWord)
include hsize

theorem runs_writeString (h : r.Suits stream name values body) {s : String}
    (hs : (Text.encode s).length = r.nameLength) :
    Entry.Runs resolve [.writeString nameField s] (r.shaped stream name values body)
      (r.shaped stream (Text.encode s) values body) := by
  obtain ⟨hmid, -, -, -⟩ := fits_of_size hsize
  have hfill : Container.writeString nameField s (r.shaped stream name values body)
      = .ok () (r.shaped stream (Text.encode s) values body) := by
    rw [shaped_name h, shaped_name { h with name := hs }]
    refine Container.fillData_described ?_ (by omega) h.name hs .stringLength
    rw [List.length_append, List.length_append, Container.length_header, h.stream,
      length_nestedHead]
    decide
  exact .step hfill rfl .nil

/-- the values from an index on, written one by one -/
theorem runs_setValues {vs : List ScalarType.u32.Value} {i : Nat} {done rest : Bytes}
    (h : r.Suits stream name (done ++ rest) body) (hdone : done.length = i * 4)
    (hrest : rest.length = vs.length * 4) :
    Entry.Runs resolve (BatchEntry.setValues i vs) (r.shaped stream name (done ++ rest) body)
      (r.shaped stream name (done ++ vs.flatMap ScalarType.u32.encode) body) := by
  obtain ⟨hmid, hcount, -, -⟩ := fits_of_size hsize
  induction vs generalizing i done rest with
  | nil =>
    rw [List.length_nil, Nat.zero_mul, List.length_eq_zero_iff] at hrest
    rw [hrest]
    exact .nil
  | cons v vs ih =>
    rw [List.length_cons, Nat.add_mul, Nat.one_mul] at hrest
    let old := rest.take 4
    let later := rest.drop 4
    have hold : old.length = 4 := by rw [List.length_take]; omega
    have hlater : later.length = vs.length * 4 := by rw [List.length_drop]; omega
    have hv : (ScalarType.u32.encode v).length = 4 := ScalarType.u32.length_encode v
    have hsplit : done ++ rest = done ++ old ++ later := by
      rw [List.append_assoc, List.take_append_drop]
    rw [hsplit] at h ⊢
    have hall : (done ++ ScalarType.u32.encode v ++ later).length = r.valueCount * 4 := by
      have htotal := h.values
      simp only [List.length_append] at htotal ⊢
      omega
    have hset : Container.setArray valuesField i ⟨.u32, v⟩
        (r.shaped stream name (done ++ old ++ later) body)
          = .ok () (r.shaped stream name (done ++ ScalarType.u32.encode v ++ later) body) := by
      rw [shaped_values h, shaped_values { h with values := hall }]
      refine Container.setArray_described (a := header 36 r.nameLength) ?_ hcount hdone hold
        h.values
      rw [List.length_append, List.length_append, h.stream, length_nestedHead, h.name]
      omega
    have hrun : Entry.Runs resolve (BatchEntry.setValues (i + 1) vs)
        (r.shaped stream name (done ++ ScalarType.u32.encode v ++ later) body)
        (r.shaped stream name (done ++ ScalarType.u32.encode v
          ++ vs.flatMap ScalarType.u32.encode) body) :=
      ih { h with values := hall } (by rw [List.length_append, hdone, hv, Nat.add_mul]) hlater
    rw [List.flatMap_cons, ← List.append_assoc]
    exact .step hset rfl hrun

theorem runs_store (h : r.Suits (Bytes.zeros 12) name values body) {c : Content} {schema : Schema}
    (hc : r.nested = some c) (hsome : c.isEmpty = false) (hschema : c.schema = some schema) :
    Entry.Runs resolve [.storeSubStream nestedField c] (r.shaped (Bytes.zeros 12) name values body)
      (r.shaped (Container.streamHead schema c.count) name values c.body) := by
  obtain ⟨-, -, hmid, hnested⟩ := fits_of_size hsize
  have hbody : c.body.length = r.nestedSize := by rw [nestedSize, hc]
  have hstored : r.Suits (Container.streamHead schema c.count) name values c.body :=
    ⟨Container.length_streamHead _ _, h.name, h.values, hbody⟩
  have hlen : (header 36 r.nameLength ++ header (28 + r.nameLength) r.valueCount).length
      = nestedField := by
    rw [List.length_append, Container.length_header, Container.length_header]
    rfl
  have hstore : Container.storeSubStream nestedField c
      (r.shaped (Bytes.zeros 12) name values body)
        = .ok () (r.shaped (Container.streamHead schema c.count) name values c.body) := by
    rw [shaped_nested h hc, shaped_nested hstored hc, ← hlen]
    refine Container.storeSubStream_described ?_ hnested hsome hschema h.body hbody
    rw [List.length_append, h.name, h.values]
    exact hmid
  exact .step hstore rfl .nil

end

end BatchRequest

/-! ## what an entry leaves -/

namespace BatchEntry

variable {e : BatchEntry Content} {resolve : Resolver}

/-- the description of a nested stream -/
def streamPart : Option Content → Bytes
  | some ⟨some schema, count, _⟩ => Container.streamHead schema count
  | _ => Bytes.zeros 12

def bodyPart : Option Content → Bytes
  | some c => c.body
  | none => []

/-- the bytes of an entry -/
def payload (e : BatchEntry Content) : Bytes :=
  e.request.shaped (streamPart e.nested) (Text.encode e.name)
    (e.values.flatMap ScalarType.u32.encode) (bodyPart e.nested)

/-- the entry has a size that its header can hold, and a stream that is nested in it is one that is
stored: it has entries and a schema -/
structure Fits (e : BatchEntry Content) : Prop where
  size : e.request.size ≤ maxWord
  nested : ∀ c, e.nested = some c → c.isEmpty = false ∧ ∃ schema, c.schema = some schema

theorem suits_payload (e : BatchEntry Content) :
    e.request.Suits (streamPart e.nested) (Text.encode e.name)
      (e.values.flatMap ScalarType.u32.encode) (bodyPart e.nested) := by
  refine ⟨?_, rfl, Container.length_flatMap_encode _ _, ?_⟩
  · unfold streamPart
    split
    · exact Container.length_streamHead _ _
    · exact Bytes.length_zeros 12
  · show _ = match e.nested with | none => 0 | some c => c.body.length
    cases e.nested <;> rfl

theorem length_payload (e : BatchEntry Content) : e.payload.length = e.request.size := by
  have hsuits := suits_payload e
  simp only [payload, BatchRequest.shaped, List.length_append, Container.length_header,
    BatchRequest.length_nestedHead, hsuits.stream, hsuits.name, hsuits.values, hsuits.body]
  unfold BatchRequest.size BatchRequest.nestedAt BatchRequest.valuesAt BatchRequest.fixedSize
  omega

theorem runs_store (h : e.Fits) {name values body : Bytes}
    (hs : e.request.Suits (Bytes.zeros 12) name values body) :
    Entry.Runs resolve (store e.nested) (e.request.shaped (Bytes.zeros 12) name values body)
      (e.request.shaped (streamPart e.nested) name values (bodyPart e.nested)) := by
  cases hn : e.nested with
  | none =>
    have hbody : body = [] := by
      have hlen := hs.body
      rw [BatchRequest.nestedSize, request, hn] at hlen
      exact List.length_eq_zero_iff.mp hlen
    rw [hbody]
    exact .nil
  | some c =>
    obtain ⟨hsome, schema, hschema⟩ := h.nested c hn
    have hstored : Entry.Runs resolve [.storeSubStream BatchRequest.nestedField c] _ _ :=
      BatchRequest.runs_store h.size hs hn hsome hschema
    obtain ⟨found, count, bytes⟩ := c
    cases hschema
    exact hstored

/-- an entry of the right size with its headers in place and nothing else -/
def patched (r : BatchRequest) : Bytes :=
  r.shaped (Bytes.zeros 12) (Bytes.zeros r.nameLength) (Bytes.zeros (r.valueCount * 4))
    (Bytes.zeros r.nestedSize)

/-- **The steps of an entry all succeed and leave its payload**: the hook, the name, the values, the
nested stream, the hook again. -/
theorem runs_steps (resolve : Resolver) (h : e.Fits) :
    Entry.Runs resolve e.request.patch (Bytes.zeros e.request.size) (patched e.request) ∧
      Entry.Runs resolve e.steps (patched e.request) e.payload ∧
      Entry.Runs resolve e.request.patch e.payload e.payload := by
  have hblank := BatchRequest.Suits.blank e.request
  have hpayload := suits_payload e
  have hnamed : e.request.Suits (Bytes.zeros 12) (Text.encode e.name)
      ([] ++ Bytes.zeros (e.request.valueCount * 4)) (Bytes.zeros e.request.nestedSize) :=
    { hblank with name := rfl }
  refine ⟨?_, ?_, ?_⟩
  · rw [BatchRequest.zeros_size]
    exact BatchRequest.runs_patch hblank rfl rfl rfl fun _ => rfl
  · have hname : Entry.Runs resolve [.writeString BatchRequest.nameField e.name] _ _ :=
      BatchRequest.runs_writeString h.size hblank rfl
    have hvalues : Entry.Runs resolve (setValues 0 e.values) _ _ :=
      BatchRequest.runs_setValues h.size hnamed rfl (Bytes.length_zeros _)
    have hstore : Entry.Runs resolve (store e.nested) _ _ :=
      runs_store h { hnamed with values := hpayload.values }
    exact hname.append (hvalues.append hstore)
  · exact BatchRequest.runs_patch hpayload (Container.length_header _ _)
      (Container.length_header _ _) (BatchRequest.length_nestedHead _) fun hn => by
        rw [BatchRequest.nestedHead, hn]

/-- what is left in the handle of the entry -/
theorem leaves_eq (resolve : Resolver) (h : e.Fits) (m : DynamicMessage) :
    Append.leaves resolve e.request.size ((e.request.request m).steps e.steps) = e.payload := by
  obtain ⟨hbefore, hsteps, hafter⟩ := runs_steps resolve h
  exact ((hbefore.append hsteps).append hafter).2

theorem writes_append (h : e.Fits) (m : DynamicMessage) :
    (e.append m).Writes resolve (.message (.dynamic m)) e.payload := by
  have hw : (e.append m).Writes resolve (.message (.dynamic m))
      (Append.leaves resolve e.request.size ((e.request.request m).steps e.steps)) :=
    .dynamicWith rfl
  rwa [leaves_eq resolve h] at hw

end BatchEntry

/-! ## what the append answers -/

def Entry.Result.failure? (r : Entry.Result) : Option Failure :=
  match r.outcome with
  | .ok _ => none
  | .error f => some f

/-- a step on the new entry that failed, if one did -/
def Appended.failure? : Appended → Option Failure
  | .stored => none
  | .entry _ results log =>
    (results ++ (log.getD []).flatMap (·.results)).findSome? Entry.Result.failure?
  | .chunked results => results.findSome? fun
    | .ok _ => none
    | .error f => some (.fault f)

namespace BatchEntry

variable {e : BatchEntry Content} {resolve : Resolver}

theorem fill_ok (resolve : Resolver) (h : e.Fits) (m : DynamicMessage) : ∃ before results after,
    (e.request.request m).fill resolve e.steps (Bytes.zeros e.request.size)
        = .ok (results, some [⟨.default, []⟩, ⟨.patch, before⟩, ⟨.patch, after⟩]) e.payload ∧
      ∀ r ∈ results ++ (before ++ after), r.outcome = .ok .done := by
  obtain ⟨⟨hbefore, hpatched⟩, ⟨hresults, hpayload⟩, hafter, hlast⟩ :=
    runs_steps resolve h
  refine ⟨(Entry.run resolve (Bytes.zeros e.request.size) e.request.patch).1,
    (Entry.run resolve (patched e.request) e.steps).1,
    (Entry.run resolve e.payload e.request.patch).1, ?_, ?_⟩
  · simp only [Request.fill, BatchRequest.request, Entry.script, Bind.bind, EStateM.bind,
      Entry.run, hpatched, hpayload, hlast]
    rfl
  · intro r hr
    rcases List.mem_append.mp hr with hr | hr
    · exact hresults r hr
    · exact (List.mem_append.mp hr).elim (hbefore r) (hafter r)

/-- **No step on the entry fails**, in whichever stream it is added. -/
theorem failure?_of_append (h : e.Fits) {m : DynamicMessage} {s s' : MessageStream}
    {answer : Appended} (hroom : s.count.toNat < maxWord)
    (happend : MessageStream.append resolve (e.append m) s = .ok answer s') :
    answer.failure? = none ∧ s'.count.toNat = s.count.toNat + 1 := by
  have hplan : (e.append m).plan resolve = some (.dynamic m e.request.size
    (Append.Plan.requested resolve (e.request.request m) e.steps)) := rfl
  rw [MessageStream.append_eq_run hplan hroom] at happend
  obtain ⟨b, storage, part, hb, -, hfill, rfl⟩ :=
    Append.Plan.of_run_ok (Append.keeps_of_plan hplan) happend
  obtain ⟨before, results, after, hrun, hall⟩ := fill_ok resolve h m
  have hanswer : ∀ n, n = e.request.size →
      Append.Plan.requested resolve (e.request.request m) e.steps n (Bytes.zeros e.request.size)
        = .ok (.entry n results (some [⟨.default, []⟩, ⟨.patch, before⟩, ⟨.patch, after⟩]))
          e.payload := by
    intro n hn
    have hconfirm := Request.confirm_of_eq (r := e.request.request m) hn
    simp only [Append.Plan.requested, Bind.bind, EStateM.bind, hconfirm, hrun]
    rfl
  have hcount := (MessageStream.bind_keeps hb).2.1
  refine ⟨?_, ?_⟩
  · cases hfill.symm.trans (hanswer _ (Bytes.length_zeros _))
    rw [Appended.failure?, List.findSome?_eq_none_iff]
    intro r hr
    rw [Entry.Result.failure?, hall r]
    simpa only [Option.getD_some, List.flatMap_cons, List.flatMap_nil, List.nil_append,
      List.append_nil] using hr
  · rw [MessageStream.count_extended (hcount.symm ▸ hroom), hcount]

/-! ## reading -/

/-- an entry as its reader gets it, the nested stream still closed -/
def ofPayload (payload : Bytes) : Except StreamError (BatchEntry Content) := do
  let name ← Container.string? payload BatchRequest.nameField
  let values ← Container.array? payload .u32 BatchRequest.valuesField
  let nested ← Container.subStream? payload BatchRequest.nestedField
  return ⟨name, values.toList, nested⟩

theorem subStream?_payload (h : e.Fits) :
    Container.subStream? e.payload BatchRequest.nestedField = .ok e.nested := by
  have hsuits := suits_payload e
  obtain ⟨-, -, hmid, hbody⟩ := BatchRequest.fits_of_size h.size
  let heads := Container.header 36 e.request.nameLength
    ++ Container.header (28 + e.request.nameLength) e.request.valueCount
  have hlen : heads.length = BatchRequest.nestedField := by
    rw [List.length_append, Container.length_header, Container.length_header]
    rfl
  cases hn : e.nested with
  | none =>
    have hpayload : e.payload = heads ++ Bytes.zeros 4 ++ (Bytes.zeros 8 ++ e.request.nestedHead
        ++ Text.encode e.name ++ e.values.flatMap ScalarType.u32.encode ++ bodyPart e.nested) := by
      have hzeros : streamPart e.nested = Bytes.zeros 4 ++ Bytes.zeros 8 := by rw [hn]; rfl
      rw [payload, BatchRequest.shaped, hzeros]
      simp only [heads, List.append_assoc]
    rw [hpayload, ← hlen]
    exact Container.subStream?_absent _ _
  | some c =>
    obtain ⟨-, schema, hschema⟩ := h.nested c hn
    have hstream : streamPart e.nested = Container.streamHead schema c.count := by
      obtain ⟨found, count, bytes⟩ := c
      cases hschema
      rw [hn]
      rfl
    have hdata : bodyPart e.nested = c.body := by rw [hn]; rfl
    have hpayload := BatchRequest.shaped_nested hsuits hn
    rw [← hsuits.body, hstream, hdata] at hpayload
    rw [payload, hstream, hdata, hpayload, ← hlen, Container.subStream?_described]
    · rw [← hschema]
    · rw [List.length_append, hsuits.name, hsuits.values]
      exact hmid
    · rw [← hdata, hsuits.body]
      exact hbody

/-- **A reader finds in the payload what was written.** -/
theorem ofPayload_payload (h : e.Fits) : ofPayload e.payload = .ok e := by
  have hsuits := suits_payload e
  obtain ⟨hname, hcount, hbody, hnested⟩ := BatchRequest.fits_of_size h.size
  have hstring : Container.string? e.payload BatchRequest.nameField = .ok e.name := by
    rw [payload, BatchRequest.shaped_name hsuits]
    refine Container.string?_described ?_ ?_
    · rw [List.length_append, List.length_append, Container.length_header, hsuits.stream,
        BatchRequest.length_nestedHead]
      decide
    · exact Nat.le_trans (Nat.le_add_left _ 28) (Nat.le_trans (Nat.le_add_right _ 8) hname)
  have harray : Container.array? e.payload .u32 BatchRequest.valuesField
      = .ok ⟨e.values.flatMap ScalarType.u32.encode⟩ := by
    rw [payload, BatchRequest.shaped_values hsuits]
    refine Container.array?_described (a := Container.header 36 e.request.nameLength) ?_ hcount
    rw [List.length_append, List.length_append, hsuits.stream, BatchRequest.length_nestedHead,
      hsuits.name]
    omega
  have hstream := subStream?_payload h
  rw [ofPayload, hstring, ok_bind, harray, ok_bind, hstream, ok_bind, Container.toList_flatMap]
  rfl

end BatchEntry
end TaggedStream
