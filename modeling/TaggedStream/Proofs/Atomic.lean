import TaggedStream.Proofs.Faultless
import TaggedStream.Proofs.Framing

/-!
# Calls that fail change nothing

Every call on a writable stream once more, change by change: the capacity, the bytes, the count,
each header, each register of a swap is written on its own, and every sum, bound and assertion on
the way can stop the call halfway.  None stops it after the first change, but for the assertion on
the entry of a request that asks for another size by then.

* `Stepwise`                 the calls change by change
* `StreamCall`               the calls as data, up to the place where a new entry is handed out
* `StreamCall.perform`, `StreamCall.steps`   what the program does, and the same change by change
* `StreamCall.steps_eq_perform`   both come to the same
* `StreamCall.Steady`, `Append.Steady`   the request of the call says the same size whenever it is
                             asked: the second time comes after the changes
* `MessageStream.append_error`    what a failed append leaves: the stream as its view opened it
* `StreamCall.perform_unsteady`, `MessageStream.append_unsteady`   what a request leaves that
                             changes its mind: at most one blank entry
* `failed_call_changes_nothing`
-/

namespace TaggedStream

/-- steps on two streams; only a swap touches the second -/
abbrev StreamsM := EStateM Failure (MessageStream × MessageStream)

/-- steps on the first stream -/
def StreamsM.onFirst {α : Type} (m : StreamM α) : StreamsM α := fun (s, other) =>
  match m s with
  | .ok a s' => .ok a (s', other)
  | .error f s' => .error f (s', other)

/-! ## change by change -/

namespace Stepwise

variable {α : Type}

/-- a sum, bound or assertion; no change -/
def check (x : Except Fault α) : StreamM α := fun s =>
  match x with
  | .ok a => .ok a s
  | .error f => .error (.fault f) s

def grow (required : Nat) : StreamM Unit := do
  let s ← get
  let target := Storage.grownTo required (max s.storage.growthFactor 2) (max s.storage.capacity 64)
  if target ≤ maxCapacity then
    set { s with storage := { s.storage with capacity := target } }
  else
    MessageStream.fault .capacity

/-- `n` more bytes, and where they start -/
def extend (n : Nat) : StreamM Nat := do
  let s ← get
  let required ← check (addSize s.storage.length n)
  if s.storage.capacity < required then grow required
  modify fun s => { s with storage := s.storage.extend n }
  return s.storage.length

def allocate (n : Nat) : StreamM Nat := do
  let offset ← extend n
  let s ← get
  if s.count.toNat = maxWord then MessageStream.fault .overflow
  set { s with count := s.count + 1 }
  return offset

/-- the handle on a region -/
def handle (offset len : Nat) : StreamM Slot := do
  let s ← get
  let _ ← check (s.storage.region offset len)
  return ⟨offset, len⟩

/-- an entry without a header -/
def plain (n : Nat) : StreamM Slot := do
  let offset ← allocate n
  handle offset n

/-- an entry with a header of `n` bytes in front of the `k` bytes that are handed out -/
def headed (n k : Nat) (write : EntryM Unit) : StreamM Slot := do
  let whole ← check (addSize n k)
  let offset ← allocate whole
  MessageStream.within ⟨offset, n⟩ write
  let start ← check (addSize offset n)
  handle start k

def dynamic (size : Nat) : StreamM Slot :=
  if maxWord < size then MessageStream.fault (.dynamicTooLarge size)
  else headed 4 size (EntryM.writeOne (UInt32.ofNat size))

def ordered (id : UInt32) (size : Nat) : StreamM Slot :=
  if maxWord < size then MessageStream.fault (.orderedTooLarge size)
  else headed 8 size (EntryM.writeTwo id (UInt32.ofNat size))

def chunked (c : ChunkShape) (mask : UInt32) : StreamM Slot :=
  if mask.toNat >>> c.chunkSizes.length = 0 then do
    let size ← check (c.sizeOf mask)
    let slot ← plain size
    MessageStream.within slot (EntryM.writeTwo (UInt32.ofNat size) mask)
    return slot
  else MessageStream.fault (.chunkMaskUndeclared mask)

/-- the assertion on the entry of a request; the count and the bytes have changed by then -/
def pending (r : Request) (slot : Slot) : StreamM Slot := do
  check (if slot.length = r.again then .ok () else .error .requestSize)
  return slot

/-- a schema that the second stream lacks, the bytes, the counts -/
def exchange : StreamsM Unit := do
  let (s, other) ← get
  if other.schema = none then set (s, { other with schema := s.schema })
  modify fun (a, b) => ({ a with storage := b.storage }, { b with storage := a.storage })
  modify fun (a, b) => ({ a with count := b.count }, { b with count := a.count })

def swap : StreamsM Unit := do
  let (_, other) ← get
  match other.schema with
  | some schema => StreamsM.onFirst (MessageStream.adopt schema)
  | none => pure ()
  exchange

end Stepwise

/-! ## the calls -/

/-- a call on a writable stream -/
inductive StreamCall where
  /-- a view on the stream -/
  | view (t : Target)
  | setSchema (schema : Schema)
  | allocate (n : Nat)
  | static (m : StaticMessage)
  | staticWith (m : StaticMessage) (r : Request)
  | dynamic (size : Nat)
  | dynamicWith (r : Request)
  | dynamicBytes (payload : Bytes)
  | ordered (m : StaticMessage)
  | orderedWith (r : Request)
  | chunked (c : ChunkShape) (mask : UInt32)
  /-- with the second stream -/
  | swap

namespace StreamCall

/-- the bytes of a payload into its entry -/
def store (payload : Bytes) (slot : Slot) : StreamM (Option Slot) :=
  MessageStream.within slot do
    EntryM.update (Entry.overwrite · 0 payload)
    return none

/-- the new entry of a request, which is asked for its size again -/
def hand (r : Request) (slot : Slot) : StreamM (Option Slot) :=
  MessageStream.within slot do
    r.confirm slot.length
    return some slot

/-- what the program does, up to the slot that it hands out -/
def perform : StreamCall → StreamsM (Option Slot)
  | view t => .onFirst do
    MessageStream.openAs t
    return none
  | setSchema schema => .onFirst do
    MessageStream.adopt schema
    return none
  | allocate n => .onFirst (some <$> MessageStream.allocate n)
  | static m => .onFirst (some <$> MessageStream.addStatic m)
  | staticWith m r => .onFirst (
    (if r.size = m.size then MessageStream.addStatic m else MessageStream.fault .staticRequestSize)
      >>= hand r)
  | dynamic size => .onFirst (some <$> MessageStream.addDynamic size)
  | dynamicWith r => .onFirst (MessageStream.addDynamic r.size >>= hand r)
  | dynamicBytes payload => .onFirst (MessageStream.addDynamic payload.length >>= store payload)
  | ordered m => .onFirst (some <$> MessageStream.addOrdered m.id m.size)
  | orderedWith r => .onFirst (MessageStream.addOrdered r.id r.size >>= hand r)
  | chunked c mask => .onFirst (some <$> MessageStream.addChunked c mask)
  | swap => fun (s, other) =>
    match s.swap other with
    | .ok swapped => .ok none swapped
    | .error e => .error (.error e) (s, other)

/-- the same change by change -/
def steps : StreamCall → StreamsM (Option Slot)
  | view t => perform (view t)
  | setSchema schema => perform (setSchema schema)
  | allocate n => .onFirst (some <$> Stepwise.plain n)
  | static m => .onFirst (some <$> Stepwise.plain m.size)
  | staticWith m r => .onFirst (some <$> (
    (if r.size = m.size then Stepwise.plain m.size else MessageStream.fault .staticRequestSize)
      >>= Stepwise.pending r))
  | dynamic size => .onFirst (some <$> Stepwise.dynamic size)
  | dynamicWith r => .onFirst (some <$> (Stepwise.dynamic r.size >>= Stepwise.pending r))
  | dynamicBytes payload => .onFirst (Stepwise.dynamic payload.length >>= store payload)
  | ordered m => .onFirst (some <$> Stepwise.ordered m.id m.size)
  | orderedWith r => .onFirst (some <$> (Stepwise.ordered r.id r.size >>= Stepwise.pending r))
  | chunked c mask => .onFirst (some <$> Stepwise.chunked c mask)
  | swap => do
    Stepwise.swap
    return none

end StreamCall

/-! ## both come to the same -/

theorem eq_of_addSize {a b sum : Nat} (h : addSize a b = .ok sum) : sum = a + b := by
  unfold addSize at h
  split at h <;> cases h
  rfl

namespace ChunkShape

/-- the sizes that can be added up have the sum that the entry is said to have -/
theorem addPresent_eq {mask : UInt32} {sizes : List Nat} {index total size : Nat}
    (h : addPresent mask index total sizes = .ok size) :
    size = total + presentSize (mask.toNat >>> index) sizes := by
  induction sizes generalizing index total with
  | nil =>
    cases h
    rfl
  | cons n rest ih =>
    rw [addPresent] at h
    obtain ⟨-, -, h⟩ := ok_of_bind h
    rw [presentSize_shiftRight_cons]
    by_cases hset : mask.toNat.testBit index = true
    · rw [if_pos hset] at h
      obtain ⟨sum, hsum, h⟩ := ok_of_bind h
      rw [if_pos hset, ih h, eq_of_addSize hsum, Nat.add_assoc]
    · rw [if_neg hset] at h
      rw [if_neg hset, Nat.zero_add, ih h]

theorem sizeOf_eq {c : ChunkShape} {mask : UInt32} {size : Nat} (h : c.sizeOf mask = .ok size) :
    size = c.entrySize mask := by
  obtain ⟨chunks, hchunks, h⟩ := ok_of_bind h
  obtain ⟨fixed, hfixed, h⟩ := ok_of_bind h
  rw [eq_of_addSize h, eq_of_addSize hfixed, addPresent_eq hchunks, Nat.zero_add,
    Nat.shiftRight_zero]
  rfl

end ChunkShape

namespace Stepwise

variable {α : Type} {s : MessageStream}

theorem check_ok (a : α) (s : MessageStream) : check (.ok a) s = .ok a s := rfl

theorem grow_eq {required : Nat} (h : s.storage.capacity < required) :
    grow required s = match s.storage.reserve required with
      | .error f => .error (.fault f) s
      | .ok storage => .ok () { s with storage } := by
  have hget : grow required s
      = (if Storage.grownTo required (max s.storage.growthFactor 2) (max s.storage.capacity 64)
            ≤ maxCapacity then
          set { s with storage := { s.storage with
            capacity := Storage.grownTo required (max s.storage.growthFactor 2)
              (max s.storage.capacity 64) } }
        else MessageStream.fault .capacity : StreamM Unit) s := rfl
  rw [hget, Storage.reserve, if_neg (Nat.not_le.mpr h)]
  simp only
  split <;> rfl

theorem extend_eq (n : Nat) (s : MessageStream) :
    extend n s = match s.storage.allocate n with
      | .error f => .error (.fault f) s
      | .ok (offset, storage) => .ok offset { s with storage } := by
  have hget : extend n s = (do
      let required ← check (addSize s.storage.length n)
      if s.storage.capacity < required then grow required
      modify fun s => { s with storage := s.storage.extend n }
      return s.storage.length : StreamM Nat) s := rfl
  rw [hget, Storage.allocate]
  by_cases hsum : maxSize < s.storage.length + n
  · rw [if_pos hsum, addSize, if_neg (Nat.not_le.mpr hsum)]
    rfl
  rw [if_neg hsum, addSize_ok (Nat.le_of_not_lt hsum), StreamM.bind_ok (check_ok _ s)]
  by_cases hcap : s.storage.capacity < s.storage.length + n
  · rw [if_pos hcap]
    have hgrow := grow_eq hcap
    cases hr : s.storage.reserve (s.storage.length + n) with
    | error f =>
      rw [hr] at hgrow
      exact StreamM.bind_error hgrow
    | ok storage =>
      rw [hr] at hgrow
      exact (StreamM.bind_ok hgrow).trans rfl
  · have hr : s.storage.reserve (s.storage.length + n) = .ok s.storage :=
      if_pos (Nat.le_of_not_lt hcap)
    rw [if_neg hcap, hr]
    rfl

theorem allocate_eq (n : Nat) (s : MessageStream) :
    allocate n s = match MessageStream.allocate n s with
      | .error f s' => .error f s'
      | .ok slot s' => .ok slot.offset s' := by
  have hextend := extend_eq n s
  rw [MessageStream.allocate]
  cases h : s.storage.allocate n with
  | error f =>
    rw [h] at hextend
    exact StreamM.bind_error hextend
  | ok grown =>
    obtain ⟨offset, storage⟩ := grown
    rw [h] at hextend
    refine (StreamM.bind_ok hextend).trans ?_
    show (if s.count.toNat = maxWord then _ else _ : StreamM Nat) { s with storage } = _
    by_cases hfull : s.count.toNat = maxWord
    · simp only [if_pos hfull]
      rfl
    · simp only [if_neg hfull]
      rfl

theorem handle_ok {offset len : Nat} (h : offset + len ≤ s.storage.bytes.length) :
    handle offset len s = .ok ⟨offset, len⟩ s := by
  have hregion : s.storage.region offset len = .ok (s.storage.bytes.slice offset len) := if_pos h
  have hget : handle offset len s
      = (do
        let _ ← check (s.storage.region offset len)
        return ⟨offset, len⟩ : StreamM Slot) s := rfl
  rw [hget, hregion]
  rfl

/-- a size that a header can hold, and the header -/
theorem header_fits {n size : Nat} (hn : n ≤ 8) (h : ¬maxWord < size) : n + size ≤ maxSize := by
  unfold maxWord at h
  unfold maxSize
  omega

section
variable (hroom : s.count.toNat < maxWord)
include hroom

theorem plain_eq (n : Nat) : plain n s = MessageStream.allocate n s := by
  have hallocate := allocate_eq n s
  rw [MessageStream.allocate_eq hroom] at hallocate ⊢
  cases h : s.storage.allocate n with
  | error f =>
    rw [h] at hallocate
    exact StreamM.bind_error hallocate
  | ok grown =>
    obtain ⟨offset, storage⟩ := grown
    rw [h] at hallocate
    have hin : s.storage.bytes.length + n
        ≤ (s.extended storage (Bytes.zeros n)).storage.bytes.length := by
      simp only [MessageStream.extended, List.length_append, Bytes.length_zeros]
      exact Nat.le_refl _
    exact (StreamM.bind_ok hallocate).trans (handle_ok hin)

theorem headed_eq {n k : Nat} {write : EntryM Unit} {header : Bytes}
    (hk : EntryM.Keeps 0 write) (hw : write (Bytes.zeros n) = .ok () header)
    (hsum : n + k ≤ maxSize) :
    headed n k write s = MessageStream.handOut header (Bytes.zeros k) s := by
  have hn : header.length = n := by
    rw [← EntryM.after_ok hw, (hk _).1, Bytes.length_zeros]
  have hallocate := allocate_eq (n + k) s
  rw [MessageStream.allocate_eq hroom] at hallocate
  rw [headed, addSize_ok hsum, StreamM.bind_ok (check_ok _ s), MessageStream.handOut, hn,
    Bytes.length_zeros]
  cases h : s.storage.allocate (n + k) with
  | error f =>
    rw [h] at hallocate
    exact StreamM.bind_error hallocate
  | ok grown =>
    obtain ⟨offset, storage⟩ := grown
    rw [h] at hallocate
    have hwithin : MessageStream.within ⟨s.storage.bytes.length, n⟩ write
        (s.extended storage (Bytes.zeros (n + k))) =
          .ok () (s.extended storage (header ++ Bytes.zeros k)) := by
      have hw' := MessageStream.within_extended s storage [] (Bytes.zeros n) (Bytes.zeros k) hk
      rwa [MessageStream.filled, hw, List.nil_append, Bytes.zeros_append,
        Bytes.length_zeros] at hw'
    have hplace : s.storage.bytes.length + n ≤ maxSize := by
      have hfits : s.storage.bytes.length + (n + k) ≤ maxSize :=
        (Storage.reserve_of_allocate h).1
      omega
    have hin : s.storage.bytes.length + n + k
        ≤ (s.extended storage (header ++ Bytes.zeros k)).storage.bytes.length := by
      simp only [MessageStream.extended, List.length_append, Bytes.length_zeros, hn]
      omega
    refine (StreamM.bind_ok hallocate).trans ((StreamM.bind_ok hwithin).trans ?_)
    rw [addSize_ok hplace, StreamM.bind_ok (check_ok _ _), handle_ok hin]

theorem dynamic_eq (size : Nat) : dynamic size s = MessageStream.addDynamic size s := by
  by_cases h : maxWord < size
  · rw [dynamic, MessageStream.addDynamic, if_pos h, if_pos h]
  · have hw := EntryM.writeOne_eq (UInt32.ofNat size) []
    rw [List.append_nil, List.append_nil] at hw
    rw [dynamic, if_neg h, MessageStream.addDynamic_eq hroom (Nat.le_of_not_lt h)]
    exact headed_eq hroom (EntryM.keeps_writeOne _) hw (header_fits (by decide) h)

theorem ordered_eq (id : UInt32) (size : Nat) :
    ordered id size s = MessageStream.addOrdered id size s := by
  by_cases h : maxWord < size
  · rw [ordered, MessageStream.addOrdered, if_pos h, if_pos h]
  · have hw := EntryM.writeTwo_eq id (UInt32.ofNat size) []
    rw [List.append_nil, List.append_nil] at hw
    rw [ordered, if_neg h, MessageStream.addOrdered_eq hroom id (Nat.le_of_not_lt h)]
    exact headed_eq hroom (EntryM.keeps_writeTwo _ _) hw (header_fits (by decide) h)

/-- sizes that cannot be added up stop the call before it has changed anything -/
theorem chunked_cases (c : ChunkShape) (mask : UInt32) :
    (∃ f, c.sizeOf mask = .error f ∧ chunked c mask s = .error (.fault f) s) ∨
      chunked c mask s = MessageStream.addChunked c mask s := by
  by_cases hmask : mask.toNat >>> c.chunkSizes.length = 0
  · have hdeclares := (c.declares_iff mask).mpr hmask
    rw [chunked, if_pos hmask, MessageStream.addChunked, if_pos hdeclares]
    cases hsize : c.sizeOf mask with
    | error f => exact .inl ⟨f, rfl, rfl⟩
    | ok size =>
      rw [StreamM.bind_ok (check_ok size s), ChunkShape.sizeOf_eq hsize]
      exact .inr (StreamM.bind_congr (plain_eq hroom _))
  · have hdeclares := mt (c.declares_iff mask).mp hmask
    rw [chunked, if_neg hmask, MessageStream.addChunked, if_neg hdeclares]
    exact .inr rfl

theorem chunked_eq {c : ChunkShape} (hc : c.Sized) (mask : UInt32) :
    chunked c mask s = MessageStream.addChunked c mask s := by
  rcases chunked_cases hroom c mask with ⟨f, hf, -⟩ | h
  · rw [ChunkShape.sizeOf_ok hc] at hf
    cases hf
  · exact h

end

theorem pending_of_eq {r : Request} {slot : Slot} (h : slot.length = r.again) (s : MessageStream) :
    pending r slot s = .ok slot s := by
  rw [pending, if_pos h]
  rfl

theorem pending_of_ne {r : Request} {slot : Slot} (h : slot.length ≠ r.again) (s : MessageStream) :
    pending r slot s = .error (.fault .requestSize) s := by
  rw [pending, if_neg h]
  rfl

theorem exchange_eq (s other : MessageStream) :
    exchange (s, other) = .ok () ({ s with storage := other.storage, count := other.count },
      { other with
        storage := s.storage, count := s.count,
        schema := if other.schema = none then s.schema else other.schema }) := by
  obtain ⟨_, schema, _, _⟩ := other
  cases schema <;> rfl

theorem swap_eq (s other : MessageStream) :
    swap (s, other) = match s.swap other with
      | .ok swapped => .ok () swapped
      | .error e => .error (.error e) (s, other) := by
  cases hschema : other.schema with
  | none =>
    have hstart : swap (s, other) = exchange (s, other) := by
      obtain ⟨_, _, _, _⟩ := other
      cases hschema
      rfl
    rw [hstart, exchange_eq, if_pos hschema, MessageStream.swap, hschema]
    rfl
  | some schema =>
    have hstart : swap (s, other)
        = (do StreamsM.onFirst (MessageStream.adopt schema); exchange) (s, other) := by
      obtain ⟨_, _, _, _⟩ := other
      cases hschema
      rfl
    rw [hstart, MessageStream.swap, hschema]
    simp only [bind, EStateM.bind, StreamsM.onFirst, MessageStream.adopt]
    cases hbind : s.bind schema with
    | error e => rfl
    | ok bound =>
      have hbound : bound.schema = some schema := (MessageStream.bind_keeps hbind).2.2
      simp only [exchange_eq, hschema, hbound, Option.some_ne_none, if_false, Except.map]

end Stepwise

/-! ## a new entry, or nothing -/

namespace MessageStream

variable {s : MessageStream} {m : StreamM Slot} {region : Bytes}

/-- nothing at all happens, or there is one more entry and its last part, `region`, is handed out -/
def AllOrNothing (m : StreamM Slot) (s : MessageStream) (region : Bytes) : Prop :=
  (∃ f, m s = .error f s) ∨
    ∃ storage front, m s = .ok ⟨s.storage.bytes.length + front.length, region.length⟩
      (s.extended storage (front ++ region))

namespace AllOrNothing

theorem error (h : AllOrNothing m s region) {f : Failure} {s' : MessageStream}
    (hm : m s = .error f s') : s' = s := by
  rcases h with ⟨f', h⟩ | ⟨storage, front, h⟩
  · cases h.symm.trans hm
    rfl
  · cases h.symm.trans hm

theorem fault (f : Fault) : AllOrNothing (MessageStream.fault f) s region := .inl ⟨_, rfl⟩

theorem handOut {front : Bytes} (hm : m s = MessageStream.handOut front region s) :
    AllOrNothing m s region := by
  rw [AllOrNothing, hm, MessageStream.handOut]
  cases s.storage.allocate (front.length + region.length) with
  | error f => exact .inl ⟨_, rfl⟩
  | ok grown => exact .inr ⟨grown.2, front, rfl⟩

section
variable (hroom : s.count.toNat < maxWord)
include hroom

theorem allocate (n : Nat) : AllOrNothing (MessageStream.allocate n) s (Bytes.zeros n) :=
  handOut (addStatic_eq hroom ⟨0, n, []⟩)

theorem addDynamic (size : Nat) :
    AllOrNothing (MessageStream.addDynamic size) s (Bytes.zeros size) := by
  by_cases hsize : maxWord < size
  · rw [MessageStream.addDynamic, if_pos hsize]
    exact fault _
  · exact handOut (addDynamic_eq hroom (Nat.le_of_not_lt hsize))

theorem addOrdered (id : UInt32) (size : Nat) :
    AllOrNothing (MessageStream.addOrdered id size) s (Bytes.zeros size) := by
  by_cases hsize : maxWord < size
  · rw [MessageStream.addOrdered, if_pos hsize]
    exact fault _
  · exact handOut (addOrdered_eq hroom id (Nat.le_of_not_lt hsize))

theorem addChunked (c : ChunkShape) (mask : UInt32) :
    AllOrNothing (MessageStream.addChunked c mask) s (c.blank mask) := by
  by_cases hmask : c.declares mask = true
  · exact handOut (addChunked_eq hroom hmask)
  · rw [MessageStream.addChunked, if_neg hmask]
    exact fault _

end

/-- steps on the new entry come after all that can stop the call -/
theorem within {α : Type} {k : Slot → EntryM α} (h : AllOrNothing m s region)
    (hk : ∀ slot, EntryM.Keeps 0 (k slot)) :
    (∃ f, m s = .error f s ∧
      (m >>= fun slot => MessageStream.within slot (k slot)) s = .error f s) ∨
      ∃ storage front slot, slot.length = region.length ∧
        m s = .ok slot (s.extended storage (front ++ region)) ∧
        (m >>= fun slot => MessageStream.within slot (k slot)) s =
          filled (k slot) region fun part => s.extended storage (front ++ part) := by
  rcases h with ⟨f, h⟩ | ⟨storage, front, h⟩
  · exact .inl ⟨f, h, StreamM.bind_error h⟩
  · refine .inr ⟨storage, front, _, rfl, h, (StreamM.bind_ok h).trans ?_⟩
    have hwithin := within_extended s storage front region []
      (hk ⟨s.storage.bytes.length + front.length, region.length⟩)
    simp only [List.append_nil] at hwithin
    exact hwithin

/-- steps on the new entry that cannot fail -/
theorem unchanged_of_settles {α : Type} {k : Slot → EntryM α} (h : AllOrNothing m s region)
    (hk : ∀ slot, EntryM.Keeps 0 (k slot))
    (hsettles : ∀ slot : Slot, ∃ a e', k slot region = .ok a e') {f : Failure} {s' : MessageStream}
    (hm : (m >>= fun slot => MessageStream.within slot (k slot)) s = .error f s') : s' = s := by
  rcases h.within hk with ⟨f', -, h⟩ | ⟨storage, front, slot, -, -, h⟩
  · cases h.symm.trans hm
    rfl
  · obtain ⟨a, part, hrun⟩ := hsettles slot
    rw [h, filled, hrun] at hm
    cases hm

/-- **A request gets its new entry if it finds it as it should be**, and else leaves it behind. -/
theorem hand_cases (h : AllOrNothing m s region) (r : Request) :
    (∃ f, m s = .error f s ∧ (m >>= StreamCall.hand r) s = .error f s) ∨
      ∃ storage front slot, slot.length = region.length ∧
        m s = .ok slot (s.extended storage (front ++ region)) ∧
        (region.length = r.again → (m >>= StreamCall.hand r) s
          = .ok (some slot) (s.extended storage (front ++ region))) ∧
        (region.length ≠ r.again → (m >>= StreamCall.hand r) s
          = .error (.fault .requestSize) (s.extended storage (front ++ region))) := by
  have hk : ∀ slot : Slot, EntryM.Keeps 0
      (do r.confirm slot.length; return some slot : EntryM (Option Slot)) :=
    fun slot => .bind (r.keeps_confirm _) fun _ => .pure _
  rcases h.within hk with hf | ⟨storage, front, slot, hlen, hm, hrun⟩
  · exact .inl hf
  · refine .inr ⟨storage, front, slot, hlen, hm, ?_, ?_⟩
    · intro hr
      refine hrun.trans ?_
      simp only [filled, Bind.bind, EStateM.bind, Request.confirm_of_eq (hlen.trans hr)]
      rfl
    · intro hr
      refine hrun.trans ?_
      simp only [filled, Bind.bind, EStateM.bind, Request.confirm_of_ne (hlen ▸ hr)]

end AllOrNothing
end MessageStream

namespace StreamsM

variable {α β : Type} {m m' : StreamM α} {s other : MessageStream}

theorem onFirst_congr (h : m s = m' s) : onFirst m (s, other) = onFirst m' (s, other) := by
  simp only [onFirst, h]

theorem onFirst_of_error {f : Failure} {s' : MessageStream} (h : m s = .error f s') :
    onFirst m (s, other) = .error f (s', other) := by
  simp only [onFirst, h]

theorem error_of_onFirst {f : Failure} {streams : MessageStream × MessageStream}
    (h : onFirst m (s, other) = .error f streams) :
    ∃ s', m s = .error f s' ∧ streams = (s', other) := by
  simp only [onFirst] at h
  cases hm : m s with
  | ok a s' =>
    rw [hm] at h
    cases h
  | error f' s' =>
    rw [hm] at h
    cases h
    exact ⟨s', rfl, rfl⟩

/-- what fails without a change to the first stream changes neither -/
theorem unchanged_of_onFirst (hm : ∀ f s', m s = .error f s' → s' = s) {f : Failure}
    {streams : MessageStream × MessageStream} (h : onFirst m (s, other) = .error f streams) :
    streams = (s, other) := by
  obtain ⟨s', hs', rfl⟩ := error_of_onFirst h
  rw [hm f s' hs']

end StreamsM

theorem StreamM.map_congr {α β : Type} {g : α → β} {m m' : StreamM α} {s : MessageStream}
    (h : m s = m' s) : (g <$> m) s = (g <$> m') s := by
  simp only [Functor.map, EStateM.map, h]

theorem StreamM.map_ok {α β : Type} {g : α → β} {m : StreamM α} {s s' : MessageStream} {a : α}
    (h : m s = .ok a s') : (g <$> m) s = .ok (g a) s' := by
  simp only [Functor.map, EStateM.map, h]

theorem StreamM.map_error {α β : Type} {g : α → β} {m : StreamM α} {s s' : MessageStream}
    {f : Failure} (h : m s = .error f s') : (g <$> m) s = .error f s' := by
  simp only [Functor.map, EStateM.map, h]

theorem StreamM.error_of_map {α β : Type} {g : α → β} {m : StreamM α} {s s' : MessageStream}
    {f : Failure} (h : (g <$> m) s = .error f s') : m s = .error f s' := by
  simp only [Functor.map, EStateM.map] at h
  cases hm : m s with
  | ok a s'' =>
    rw [hm] at h
    cases h
  | error f' s'' =>
    rw [hm] at h
    cases h
    rfl

namespace StreamCall

variable {s other : MessageStream}

/-- the sizes of a chunked message can be added up; nothing is asked of the other calls -/
def Sized : StreamCall → Prop
  | chunked c _ => c.Sized
  | _ => True

/-- the request that the call is given -/
def request? : StreamCall → Option Request
  | staticWith _ r | dynamicWith r | orderedWith r => some r
  | _ => none

/-- the request of the call, if it has one, says the same size both times it is asked -/
def Steady (c : StreamCall) : Prop := ∀ r, c.request? = some r → r.Steady

/-- an entry that is handed out, or nothing -/
theorem unchanged_of_adds {m : StreamM Slot} {region : Bytes}
    (h : MessageStream.AllOrNothing m s region) {f : Failure}
    {streams : MessageStream × MessageStream}
    (hm : StreamsM.onFirst (some <$> m) (s, other) = .error f streams) : streams = (s, other) :=
  StreamsM.unchanged_of_onFirst (fun _ _ he => h.error (StreamM.error_of_map he)) hm

/-- the same for an entry that goes to a request of its size -/
theorem unchanged_of_hands {m : StreamM Slot} {region : Bytes} {r : Request}
    (h : MessageStream.AllOrNothing m s region) (hr : region.length = r.again) {f : Failure}
    {streams : MessageStream × MessageStream}
    (hm : StreamsM.onFirst (m >>= hand r) (s, other) = .error f streams) :
    streams = (s, other) := by
  refine StreamsM.unchanged_of_onFirst (fun f' s' he => ?_) hm
  rcases h.hand_cases r with ⟨f'', -, hf⟩ | ⟨storage, front, slot, -, -, hok, -⟩
  · cases hf.symm.trans he
    rfl
  · cases (hok hr).symm.trans he

/-- and for one that goes to a request which asks for another size by then -/
theorem left_of_hands {m : StreamM Slot} {region : Bytes} {r : Request}
    (h : MessageStream.AllOrNothing m s region) (hr : region.length ≠ r.again) :
    ∃ f streams, StreamsM.onFirst (m >>= hand r) (s, other) = .error f streams ∧
      (streams = (s, other) ∨ f = .fault .requestSize ∧ ∃ storage front,
        streams = (s.extended storage (front ++ region), other)) := by
  rcases h.hand_cases r with ⟨f, -, hf⟩ | ⟨storage, front, slot, -, -, -, herror⟩
  · exact ⟨f, _, StreamsM.onFirst_of_error hf, .inl rfl⟩
  · exact ⟨_, _, StreamsM.onFirst_of_error (herror hr), .inr ⟨rfl, storage, front, rfl⟩⟩

theorem keeps_store (payload : Bytes) :
    EntryM.Keeps 0 (do EntryM.update (Entry.overwrite · 0 payload); return none :
      EntryM (Option Slot)) :=
  .bind (Entry.keeps_overwrite 0 payload) fun _ => .pure _

/-- the payload of a new entry has room for as many bytes as it was asked for -/
theorem store_settles {α : Type} {a : α} {payload e : Bytes} (h : e.length = payload.length) :
    ∃ answer e', (do EntryM.update (Entry.overwrite · 0 payload); return a : EntryM α) e
      = .ok answer e' := by
  have hwrite : Entry.overwrite e 0 payload = .ok (e.splice 0 payload) := if_pos (by omega)
  refine ⟨a, e.splice 0 payload, ?_⟩
  simp only [bind, EStateM.bind, EntryM.update, hwrite]
  rfl

theorem view_error {t : Target} {f : Failure} {s' : MessageStream}
    (h : (do MessageStream.openAs t; return none : StreamM (Option Slot)) s = .error f s') :
    s' = s := by
  rcases MessageStream.openAs_cases t s with ⟨f', hopen⟩ | ⟨b, -, -, hopen⟩
  · rw [StreamM.bind_error hopen] at h
    cases h
    rfl
  · rw [StreamM.bind_ok hopen] at h
    cases h

theorem setSchema_error {schema : Schema} {f : Failure} {s' : MessageStream}
    (h : (do MessageStream.adopt schema; return none : StreamM (Option Slot)) s = .error f s') :
    s' = s := by
  simp only [bind, EStateM.bind, MessageStream.adopt] at h
  cases hbind : s.bind schema with
  | error e =>
    rw [hbind] at h
    cases h
    rfl
  | ok bound =>
    rw [hbind] at h
    cases h

/-- the new entry of a request for a static message has the size that the request asks for first -/
theorem adds_static {m : StaticMessage} {r : Request} (hroom : s.count.toNat < maxWord) :
    MessageStream.AllOrNothing (if r.size = m.size then MessageStream.addStatic m
      else MessageStream.fault .staticRequestSize) s (Bytes.zeros r.size) := by
  by_cases hsize : r.size = m.size
  · rw [if_pos hsize, hsize]
    exact .allocate hroom m.size
  · rw [if_neg hsize]
    exact .fault _

/-- **A call that fails changes nothing**, as long as there is room for one more entry and its
request is steady. -/
theorem perform_error {c : StreamCall} (hc : c.Steady) (hroom : s.count.toNat < maxWord)
    {f : Failure} {streams : MessageStream × MessageStream}
    (h : c.perform (s, other) = .error f streams) : streams = (s, other) := by
  have hagain : ∀ r, c.request? = some r → (Bytes.zeros r.size).length = r.again :=
    fun r hr => Request.steady_iff.mp (hc r hr)
  cases c with
  | view t => exact StreamsM.unchanged_of_onFirst (fun _ _ => view_error) h
  | setSchema schema => exact StreamsM.unchanged_of_onFirst (fun _ _ => setSchema_error) h
  | allocate n => exact unchanged_of_adds (.allocate hroom n) h
  | static m => exact unchanged_of_adds (.allocate hroom m.size) h
  | staticWith m r => exact unchanged_of_hands (adds_static hroom) (hagain r rfl) h
  | dynamic size => exact unchanged_of_adds (.addDynamic hroom size) h
  | dynamicWith r => exact unchanged_of_hands (.addDynamic hroom r.size) (hagain r rfl) h
  | dynamicBytes payload =>
    have hadds := MessageStream.AllOrNothing.addDynamic hroom payload.length
    exact StreamsM.unchanged_of_onFirst (fun _ _ => hadds.unchanged_of_settles
      (fun _ => keeps_store payload) fun _ => store_settles (Bytes.length_zeros _)) h
  | ordered m => exact unchanged_of_adds (.addOrdered hroom m.id m.size) h
  | orderedWith r => exact unchanged_of_hands (.addOrdered hroom r.id r.size) (hagain r rfl) h
  | chunked c mask => exact unchanged_of_adds (.addChunked hroom c mask) h
  | swap =>
    simp only [perform] at h
    split at h
    · cases h
    · cases h
      rfl

/-- what a call with an unsteady request leaves: nothing new, or the blank entry of the size that
the request asked for first -/
theorem perform_unsteady {c : StreamCall} {r : Request} (hr : c.request? = some r)
    (hunsteady : ¬ r.Steady) (hroom : s.count.toNat < maxWord) :
    ∃ f streams, c.perform (s, other) = .error f streams ∧
      (streams = (s, other) ∨ f = .fault .requestSize ∧ ∃ storage front,
        streams = (s.extended storage (front ++ Bytes.zeros r.size), other)) := by
  have hne : (Bytes.zeros r.size).length ≠ r.again := mt Request.steady_iff.mpr hunsteady
  cases c with
  | staticWith m _ =>
    cases hr
    exact left_of_hands (adds_static hroom) hne
  | dynamicWith _ =>
    cases hr
    exact left_of_hands (.addDynamic hroom r.size) hne
  | orderedWith _ =>
    cases hr
    exact left_of_hands (.addOrdered hroom r.id r.size) hne
  | view _ | setSchema _ | allocate _ | static _ | dynamic _ | dynamicBytes _ | ordered _
  | chunked _ _ | swap => cases hr

theorem adds_congr {m m' : StreamM Slot} (h : m s = m' s) :
    StreamsM.onFirst (some <$> m) (s, other) = StreamsM.onFirst (some <$> m') (s, other) :=
  StreamsM.onFirst_congr (StreamM.map_congr h)

theorem hands_congr {m m' : StreamM Slot} {region : Bytes} {r : Request}
    (hm : MessageStream.AllOrNothing m s region) (h : m' s = m s) :
    StreamsM.onFirst (some <$> (m' >>= Stepwise.pending r)) (s, other)
      = StreamsM.onFirst (m >>= hand r) (s, other) := by
  refine StreamsM.onFirst_congr ?_
  rcases hm.hand_cases r with ⟨f, hf, hrun⟩ | ⟨storage, front, slot, hlen, hok, hsame, hother⟩
  · rw [hrun]
    exact StreamM.map_error (StreamM.bind_error (h.trans hf))
  · have hpending := StreamM.bind_ok (k := Stepwise.pending r) (h.trans hok)
    by_cases hr : region.length = r.again
    · rw [hsame hr]
      exact StreamM.map_ok (hpending.trans (Stepwise.pending_of_eq (hlen.trans hr) _))
    · rw [hother hr]
      exact StreamM.map_error (hpending.trans (Stepwise.pending_of_ne (hlen ▸ hr) _))

theorem swap_steps (s other : MessageStream) : steps swap (s, other) = perform swap (s, other) := by
  have h := Stepwise.swap_eq s other
  simp only [steps, perform, bind, EStateM.bind, h]
  cases s.swap other <;> rfl

/-- **Change by change comes to the same.** -/
theorem steps_eq_perform {c : StreamCall} (hc : c.Sized) (hroom : s.count.toNat < maxWord) :
    c.steps (s, other) = c.perform (s, other) := by
  cases c with
  | view t => rfl
  | setSchema schema => rfl
  | allocate n => exact adds_congr (Stepwise.plain_eq hroom n)
  | static m => exact adds_congr (Stepwise.plain_eq hroom m.size)
  | staticWith m r =>
    refine hands_congr (adds_static hroom) ?_
    by_cases hsize : r.size = m.size
    · rw [if_pos hsize, if_pos hsize]
      exact Stepwise.plain_eq hroom m.size
    · rw [if_neg hsize, if_neg hsize]
  | dynamic size => exact adds_congr (Stepwise.dynamic_eq hroom size)
  | dynamicWith r => exact hands_congr (.addDynamic hroom r.size) (Stepwise.dynamic_eq hroom r.size)
  | dynamicBytes payload =>
    exact StreamsM.onFirst_congr (StreamM.bind_congr (Stepwise.dynamic_eq hroom payload.length))
  | ordered m => exact adds_congr (Stepwise.ordered_eq hroom m.id m.size)
  | orderedWith r =>
    exact hands_congr (.addOrdered hroom r.id r.size) (Stepwise.ordered_eq hroom r.id r.size)
  | chunked c mask => exact adds_congr (Stepwise.chunked_eq hroom hc mask)
  | swap => exact swap_steps s other

theorem steps_error {c : StreamCall} (hsteady : c.Steady) (hroom : s.count.toNat < maxWord)
    {f : Failure} {streams : MessageStream × MessageStream}
    (h : c.steps (s, other) = .error f streams) : streams = (s, other) := by
  by_cases hc : c.Sized
  · rw [steps_eq_perform hc hroom] at h
    exact perform_error hsteady hroom h
  cases c with
  | chunked c mask =>
    refine StreamsM.unchanged_of_onFirst (fun f s' he => ?_) h
    have he := StreamM.error_of_map he
    rcases Stepwise.chunked_cases hroom c mask with ⟨f', -, hrefused⟩ | hsame
    · cases hrefused.symm.trans he
      rfl
    · exact (MessageStream.AllOrNothing.addChunked hroom c mask).error (hsame.symm.trans he)
  | view _ | setSchema _ | allocate _ | static _ | staticWith _ _ | dynamic _ | dynamicWith _
  | dynamicBytes _ | ordered _ | orderedWith _ | swap => exact absurd trivial hc

end StreamCall

/-! ## appends -/

theorem ChunkShape.run_settles (resolve : Resolver) (c : ChunkShape) (ops : List ChunkShape.Op)
    (e : Bytes) : ∃ results e', c.run resolve ops e = .ok results e' := by
  induction ops generalizing e with
  | nil => exact ⟨[], e, rfl⟩
  | cons op ops ih =>
    obtain ⟨first, hfirst⟩ := EntryM.attempt_eq (c.perform resolve op) e
    obtain ⟨others, e', hothers⟩ := ih ((c.perform resolve op).after e)
    refine ⟨first :: others, e', ?_⟩
    simp only [run, bind, EStateM.bind, hfirst, hothers]
    rfl

namespace Append

variable {resolve : Resolver} {a : Append} {p : Plan}

/-- the request that the append is given -/
def request? : Append → Option Request
  | staticWith _ r _ | dynamicWith _ r _ | orderedWith r _ => some r
  | _ => none

/-- the request of the append, if it has one, says the same size both times it is asked -/
def Steady (a : Append) : Prop := ∀ r, a.request? = some r → r.Steady

theorem exists_target {r : Request} (hr : a.request? = some r) : ∃ t, a.target? = some t := by
  cases a with
  | raw size ops => cases hr
  | _ => exact ⟨_, rfl⟩

/-- the entry that a request gets, if nothing is refused, has the size that it asks for first -/
theorem plan_of_request {r : Request} (h : a.plan resolve = some p) (hr : a.request? = some r) :
    ∃ ops, p.fill = Plan.requested resolve r ops ∧
      (p.refusal = none → p.region = Bytes.zeros r.size) := by
  cases a with
  | staticWith m r ops =>
    cases hr
    cases h
    refine ⟨ops, rfl, fun hnone => ?_⟩
    have hsize : r.size = m.size := by
      simp only [Plan.static] at hnone
      split at hnone
      · assumption
      · cases hnone
    rw [hsize]
    rfl
  | dynamicWith m r ops | orderedWith r ops =>
    cases hr
    cases h
    exact ⟨ops, rfl, fun _ => rfl⟩
  | raw _ _ | static _ _ | dynamic _ _ _ | dynamicBytes _ _ | ordered _ _ | chunked _ _ _ =>
    cases hr

/-- what is done to a new entry may fail step by step; the append as such goes on -/
theorem fill_settles (h : a.plan resolve = some p) (hsteady : a.Steady)
    (hr : p.refusal = none) : ∃ answer part, p.fill p.region.length p.region = .ok answer part := by
  cases a with
  | raw size ops => cases h
  | static m ops | dynamic m size ops | ordered m ops =>
    cases h
    exact ⟨_, _, rfl⟩
  | dynamicBytes m payload =>
    cases h
    exact StreamCall.store_settles (Bytes.length_zeros payload.length)
  | staticWith m r ops | dynamicWith m r ops | orderedWith r ops =>
    obtain ⟨steps, hfill, hregion⟩ := plan_of_request h rfl
    have hsize := Request.steady_iff.mp (hsteady r rfl)
    obtain ⟨answer, hrun⟩ := Plan.requested_eq resolve r steps hsize (Bytes.zeros r.size)
    rw [hfill, hregion hr]
    exact ⟨answer, _, hrun⟩
  | chunked m mask ops =>
    cases h
    obtain ⟨results, e', hrun⟩ := m.shape.run_settles resolve ops (m.shape.blank mask)
    refine ⟨.chunked results, e', ?_⟩
    simp only [Plan.chunked, bind, EStateM.bind, hrun]
    rfl

/-- a plan that fails leaves the stream as it was, or as it was opened -/
theorem Plan.run_error (hk : ∀ n, EntryM.Keeps 0 (p.fill n))
    (hfill : p.refusal = none →
      ∃ answer part, p.fill p.region.length p.region = .ok answer part)
    {s s' : MessageStream} {f : Failure} (h : p.run s = .error f s') :
    s' = s ∨ MessageStream.openAs p.target s = .ok () s' := by
  rcases run_cases hk s with ⟨f', hf⟩ | ⟨b, -, -, hopen, ⟨f', hf⟩ | ⟨hr, storage, hadded⟩⟩
  · cases hf.symm.trans h
    exact .inl rfl
  · cases hf.symm.trans h
    exact .inr hopen
  · obtain ⟨answer, part, hfill⟩ := hfill hr
    simp only [hadded, MessageStream.filled, hfill] at h
    cases h

end Append

/-- **An append that fails adds nothing**, if its request is steady.  What it may leave behind is
the schema that its view has bound before. -/
theorem MessageStream.append_error {resolve : Resolver} {a : Append} {s s' : MessageStream}
    (hsteady : a.Steady) (hroom : s.count.toNat < maxWord) {f : Failure}
    (h : append resolve a s = .error f s') :
    s' = s ∨ ∃ t, a.target? = some t ∧ openAs t s = .ok () s' := by
  cases ht : a.target? with
  | some t =>
    obtain ⟨p, hp, rfl⟩ := a.exists_plan resolve ht
    rw [append_eq_run hp hroom] at h
    have hsettles := Append.fill_settles hp hsteady
    rcases Append.Plan.run_error (Append.keeps_of_plan hp) hsettles h with h | h
    · exact .inl h
    · exact .inr ⟨p.target, rfl, h⟩
  | none =>
    cases a with
    | raw size ops =>
      have hadds := AllOrNothing.allocate hroom size
      exact .inl (hadds.unchanged_of_settles
        (k := fun slot => Append.Plan.steps resolve ops slot.length)
        (fun slot => Append.keeps_steps ops slot.length) (fun _ => ⟨_, _, rfl⟩) h)
    | _ => cases ht

/-- an append with an unsteady request always fails, and no step on the new entry is carried out -/
theorem MessageStream.append_unsteady {a : Append} {r : Request} (hr : a.request? = some r)
    (hunsteady : ¬ r.Steady) {s : MessageStream} (hroom : s.count.toNat < maxWord)
    (resolve : Resolver) :
    ∃ f s', append resolve a s = .error f s' ∧
      (s' = s ∨ ∃ t b, a.target? = some t ∧ openAs t s = .ok () b ∧
        (s' = b ∨ f = .fault .requestSize ∧ ∃ storage front,
          s' = b.extended storage (front ++ Bytes.zeros r.size))) := by
  obtain ⟨t, ht⟩ := Append.exists_target hr
  obtain ⟨p, hp, rfl⟩ := a.exists_plan resolve ht
  obtain ⟨ops, hfill, hregion⟩ := Append.plan_of_request hp hr
  rw [append_eq_run hp hroom]
  rcases Append.Plan.run_cases (Append.keeps_of_plan hp) s with
    ⟨f, hf⟩ | ⟨b, -, -, hopen, ⟨f, hf⟩ | ⟨hnone, storage, hadded⟩⟩
  · exact ⟨f, s, hf, .inl rfl⟩
  · exact ⟨f, b, hf, .inr ⟨_, b, ht, hopen, .inl rfl⟩⟩
  · have hsize : (Bytes.zeros r.size).length ≠ r.again := mt Request.steady_iff.mpr hunsteady
    refine ⟨_, _, ?_, .inr ⟨_, b, ht, hopen, .inr ⟨rfl, storage, p.front, rfl⟩⟩⟩
    rw [hadded, hfill, hregion hnone, filled, Append.Plan.requested_error resolve r ops hsize]

/-- **A call that fails leaves the streams exactly as they were.**  Take a stream with room for one
more entry, and requests that say the same size whenever they are asked.  Whatever call fails, with
an error or a fault, before it has handed out an entry: neither stream has changed, not its schema,
count, bytes, capacity or version, be the call taken as a whole or change by change.  And an append
that fails has added nothing to the stream that its view opened.  A call or an append with a request
that changes its mind always fails; beyond what its view has opened, the stream is as it was, or has
one more entry, blank, of the size that was asked for first. -/
theorem failed_call_changes_nothing (s other : MessageStream) (hroom : s.count.toNat < maxWord) :
    (∀ c : StreamCall, c.Steady → ∀ f streams, c.perform (s, other) = .error f streams →
      streams = (s, other)) ∧
    (∀ c : StreamCall, c.Steady → ∀ f streams, c.steps (s, other) = .error f streams →
      streams = (s, other)) ∧
    (∀ c : StreamCall, c.Sized → c.steps (s, other) = c.perform (s, other)) ∧
    (∀ a : Append, a.Steady → ∀ resolve f s', MessageStream.append resolve a s = .error f s' →
      s' = s ∨ ∃ t, a.target? = some t ∧ MessageStream.openAs t s = .ok () s') ∧
    (∀ (c : StreamCall) r, c.request? = some r → ¬ r.Steady →
      ∃ f streams, c.perform (s, other) = .error f streams ∧
        (streams = (s, other) ∨ f = .fault .requestSize ∧ ∃ storage front,
          streams = (s.extended storage (front ++ Bytes.zeros r.size), other))) ∧
    (∀ (a : Append) r, a.request? = some r → ¬ r.Steady → ∀ resolve,
      ∃ f s', MessageStream.append resolve a s = .error f s' ∧
        (s' = s ∨ ∃ t b, a.target? = some t ∧ MessageStream.openAs t s = .ok () b ∧
          (s' = b ∨ f = .fault .requestSize ∧ ∃ storage front,
            s' = b.extended storage (front ++ Bytes.zeros r.size)))) :=
  ⟨fun _ hc _ _ => StreamCall.perform_error hc hroom,
    fun _ hc _ _ => StreamCall.steps_error hc hroom,
    fun _ hc => StreamCall.steps_eq_perform hc hroom,
    fun _ ha _ _ _ => MessageStream.append_error ha hroom,
    fun _ _ hr hunsteady => StreamCall.perform_unsteady hr hunsteady hroom,
    fun _ _ hr hunsteady resolve => MessageStream.append_unsteady hr hunsteady hroom resolve⟩

/-- an undeclared chunk, a steady request of the wrong size, a swap of streams with different
schemas; and a request that asks for four bytes and then for five -/
theorem refused_calls_change_nothing :
    let s : MessageStream := ⟨⟨[1, 2], 64, 2⟩, some ⟨.static, 1⟩, 1, 7⟩
    let other : MessageStream := ⟨⟨[3], 64, 2⟩, some ⟨.chunked, 1⟩, 1, 0⟩
    let undeclared : StreamCall := .chunked ⟨4, [2]⟩ 2
    let wrong : StreamCall := .staticWith ⟨1, 2, []⟩ ⟨⟨4, 4⟩, 1, none⟩
    let unsteady : StreamCall := .dynamicWith ⟨⟨4, 5⟩, 1, none⟩
    s.count.toNat < maxWord ∧ undeclared.Steady ∧ wrong.Steady ∧ StreamCall.swap.Steady ∧
      (∃ f streams, undeclared.steps (s, other) = .error f streams ∧ streams = (s, other)) ∧
      (∃ f streams, wrong.perform (s, other) = .error f streams ∧ streams = (s, other)) ∧
      (∃ f streams, StreamCall.swap.steps (s, other) = .error f streams ∧ streams = (s, other)) ∧
      ∃ storage front, unsteady.perform (s, other)
        = .error (.fault .requestSize) (s.extended storage (front ++ Bytes.zeros 4), other) := by
  intro s other undeclared wrong unsteady
  have hroom : s.count.toNat < maxWord := by decide
  obtain ⟨hperform, hsteps, -, -, hunsteady, -⟩ := failed_call_changes_nothing s other hroom
  have hundeclared : undeclared.Steady := fun r hr => by cases hr
  have hwrong : wrong.Steady := fun r hr => by cases hr; rfl
  have hswap : StreamCall.swap.Steady := fun r hr => by cases hr
  have hchunk : undeclared.steps (s, other)
      = .error (.fault (.chunkMaskUndeclared 2)) (s, other) := rfl
  have hsize : wrong.perform (s, other) = .error (.fault .staticRequestSize) (s, other) := rfl
  have hmismatch : StreamCall.swap.steps (s, other)
      = .error (.error (.schemaMismatch ⟨.chunked, 1⟩ ⟨.static, 1⟩)) (s, other) := rfl
  refine ⟨hroom, hundeclared, hwrong, hswap, ⟨_, _, hchunk, hsteps _ hundeclared _ _ hchunk⟩,
    ⟨_, _, hsize, hperform _ hwrong _ _ hsize⟩, ⟨_, _, hmismatch, hsteps _ hswap _ _ hmismatch⟩, ?_⟩
  have hchanged : unsteady.perform (s, other) = .error (.fault .requestSize)
      (⟨⟨[1, 2, 4, 0, 0, 0, 0, 0, 0, 0], 64, 2⟩, some ⟨.static, 1⟩, 2, 7⟩, other) := rfl
  obtain ⟨f, streams, herror, hleft⟩ := hunsteady unsteady ⟨⟨4, 5⟩, 1, none⟩ rfl (by decide)
  rcases hleft with rfl | ⟨rfl, storage, front, rfl⟩
  · obtain ⟨-, hsame⟩ := EStateM.Result.error.inj (hchanged.symm.trans herror)
    have hcount : (2 : UInt32) = 1 := congrArg (·.1.count) hsame
    exact absurd hcount (by decide)
  · exact ⟨storage, front, herror⟩

end TaggedStream
