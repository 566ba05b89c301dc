import TaggedStream.Proofs.Grammar
import TaggedStream.Proofs.Growth
import TaggedStream.Proofs.Handles

/-!
# What an append adds

Every append of a message follows one plan: open the stream, refuse arguments that make no entry,
add the header and the zeros behind it, and hand one region of them to the caller.

* `MessageStream.extended`     a stream with one more entry at its end
* `MessageStream.handOut`      a new entry, and the region of it that the caller gets
* `Append.Plan`, `Append.plan` what an append opens, adds and fills, as data
* `MessageStream.append_eq_run`   an append does what its plan says
* `Append.isEntry`                and what it adds is an entry, whatever the caller does to it
-/

namespace TaggedStream

/-- new bytes -/
def Bytes.zeros (n : Nat) : Bytes := List.replicate n 0

theorem Bytes.length_zeros (n : Nat) : (zeros n).length = n := List.length_replicate

theorem Bytes.zeros_append (n k : Nat) : zeros n ++ zeros k = zeros (n + k) :=
  List.replicate_append_replicate

theorem Bytes.slice_middle (a b c : Bytes) : (a ++ b ++ c).slice a.length b.length = b := by
  rw [slice, List.append_assoc, List.drop_left, List.take_left]

theorem Bytes.splice_middle (a b c d : Bytes) (h : d.length = b.length) :
    (a ++ b ++ c).splice a.length d = a ++ d ++ c := by
  rw [splice, h, ← List.drop_drop, List.append_assoc a b c, List.take_left, List.drop_left,
    List.drop_left]

namespace ChunkShape

variable (c : ChunkShape) (mask : UInt32)

/-- the size of the entry and its mask -/
def header : Bytes := Bytes.ofWord (UInt32.ofNat (c.entrySize mask)) ++ Bytes.ofWord mask

/-- an entry with nothing in its base and chunks -/
def blank : Bytes := c.header mask ++ Bytes.zeros (c.entrySize mask - headerSize)

theorem length_header : (c.header mask).length = headerSize := Layout.length_pair _ _

theorem headerSize_le_entrySize : headerSize ≤ c.entrySize mask := by
  unfold entrySize
  omega

theorem length_blank : (c.blank mask).length = c.entrySize mask := by
  rw [blank, List.length_append, length_header, Bytes.length_zeros]
  exact Nat.add_sub_cancel' (c.headerSize_le_entrySize mask)

end ChunkShape

/-! ## steps on a stream -/

namespace StreamM

variable {α β : Type}

/-- the stream after some steps, whether they failed or not -/
def after (m : StreamM α) (s : MessageStream) : MessageStream :=
  match m s with
  | .ok _ s' => s'
  | .error _ s' => s'

theorem bind_ok {m : StreamM α} {k : α → StreamM β} {s s' : MessageStream} {a : α}
    (h : m s = .ok a s') : (m >>= k) s = k a s' := by
  simp only [bind, EStateM.bind, h]

theorem bind_error {m : StreamM α} {k : α → StreamM β} {s s' : MessageStream} {f : Failure}
    (h : m s = .error f s') : (m >>= k) s = .error f s' := by
  simp only [bind, EStateM.bind, h]

theorem bind_congr {m m' : StreamM α} {k : α → StreamM β} {s : MessageStream} (h : m s = m' s) :
    (m >>= k) s = (m' >>= k) s := by
  simp only [bind, EStateM.bind, h]

end StreamM

namespace Storage

theorem of_allocate {s s' : Storage} {n offset : Nat} (h : s.allocate n = .ok (offset, s')) :
    offset = s.bytes.length ∧ s'.bytes = s.bytes ++ Bytes.zeros n := by
  obtain ⟨-, rfl, grown, hgrown, rfl⟩ := allocate_cases h
  exact ⟨rfl, congrArg (· ++ Bytes.zeros n) (reserve_keeps hgrown).1⟩

end Storage

/-! ## headers -/

theorem Entry.overwrite_middle (a old b data : Bytes) (h : old.length = data.length) :
    Entry.overwrite (a ++ old ++ b) a.length data = .ok (a ++ data ++ b) := by
  have hle : a.length + data.length ≤ (a ++ old ++ b).length := by
    rw [List.length_append, List.length_append]
    omega
  rw [Entry.overwrite, if_pos hle, Bytes.splice_middle a old b data h.symm]

theorem Entry.writeWord_zero (w : UInt32) (b : Bytes) :
    Entry.writeWord (Bytes.zeros 4 ++ b) 0 w = .ok (Bytes.ofWord w ++ b) :=
  Entry.overwrite_middle [] (Bytes.zeros 4) b (Bytes.ofWord w) (Bytes.length_ofWord w).symm

theorem Entry.writeWord_four (w v : UInt32) (b : Bytes) :
    Entry.writeWord (Bytes.ofWord w ++ Bytes.zeros 4 ++ b) 4 v
      = .ok (Bytes.ofWord w ++ Bytes.ofWord v ++ b) :=
  Entry.overwrite_middle (Bytes.ofWord w) (Bytes.zeros 4) b (Bytes.ofWord v)
    (Bytes.length_ofWord v).symm

namespace EntryM

/-- a header of one word -/
def writeOne (w : UInt32) : EntryM Unit := update (Entry.writeWord · 0 w)

/-- a header of two words -/
def writeTwo (w v : UInt32) : EntryM Unit := do
  update (Entry.writeWord · 0 w)
  update (Entry.writeWord · 4 v)

theorem writeOne_eq (w : UInt32) (b : Bytes) :
    writeOne w (Bytes.zeros 4 ++ b) = .ok () (Bytes.ofWord w ++ b) := by
  simp only [writeOne, update, Entry.writeWord_zero]

theorem writeTwo_eq (w v : UInt32) (b : Bytes) :
    writeTwo w v (Bytes.zeros 8 ++ b) = .ok () (Bytes.ofWord w ++ Bytes.ofWord v ++ b) := by
  have h8 : Bytes.zeros 8 ++ b = Bytes.zeros 4 ++ (Bytes.zeros 4 ++ b) := rfl
  simp only [writeTwo, update, bind, EStateM.bind, h8, Entry.writeWord_zero]
  rw [← List.append_assoc, Entry.writeWord_four]

theorem keeps_writeOne (w : UInt32) : Keeps 0 (writeOne w) := Entry.keeps_writeWord _ _

theorem keeps_writeTwo (w v : UInt32) : Keeps 0 (writeTwo w v) :=
  .bind (Entry.keeps_writeWord _ _) fun _ => Entry.keeps_writeWord _ _

end EntryM

namespace MessageStream

variable {α : Type}

/-- the entry at the end, the rest of the storage as given -/
def extended (s : MessageStream) (storage : Storage) (entry : Bytes) : MessageStream :=
  { s with storage := { storage with bytes := s.storage.bytes ++ entry }, count := s.count + 1 }

theorem count_extended {s : MessageStream} (h : s.count.toNat < maxWord) (storage : Storage)
    (entry : Bytes) : (s.extended storage entry).count.toNat = s.count.toNat + 1 := by
  show (s.count + 1).toNat = _
  rw [UInt32.toNat_add]
  exact Nat.mod_eq_of_lt (Nat.succ_lt_succ h)

theorem allocate_eq {s : MessageStream} (hroom : s.count.toNat < maxWord) (n : Nat) :
    allocate n s = match s.storage.allocate n with
      | .error f => .error (.fault f) s
      | .ok (_, storage) =>
        .ok ⟨s.storage.bytes.length, n⟩ (s.extended storage (Bytes.zeros n)) := by
  unfold allocate
  cases h : s.storage.allocate n with
  | error f => rfl
  | ok grown =>
    obtain ⟨offset, storage⟩ := grown
    obtain ⟨rfl, hbytes⟩ := Storage.of_allocate h
    have hs : { storage with bytes := s.storage.bytes ++ Bytes.zeros n } = storage := by
      rw [← hbytes]
    simp only [extended, hs]
    rw [if_neg (Nat.ne_of_lt hroom)]

/-- what steps on a part leave of the whole that `put` makes of it -/
def filled (m : EntryM α) (part : Bytes) (put : Bytes → MessageStream) :
    EStateM.Result Failure MessageStream α :=
  match m part with
  | .ok a part' => .ok a (put part')
  | .error f part' => .error (.fault f) (put part')

/-- **Steps on a part of the last entry** change that part of it and nothing else. -/
theorem within_extended (s : MessageStream) (storage : Storage) (a part b : Bytes) {m : EntryM α}
    (hm : EntryM.Keeps 0 m) :
    within ⟨s.storage.bytes.length + a.length, part.length⟩ m
        (s.extended storage (a ++ part ++ b)) =
      filled m part fun part' => s.extended storage (a ++ part' ++ b) := by
  have hlen : s.storage.bytes.length + a.length = (s.storage.bytes ++ a).length :=
    List.length_append.symm
  have hjoin : ∀ part' : Bytes, s.storage.bytes ++ (a ++ part' ++ b)
      = s.storage.bytes ++ a ++ part' ++ b := by
    intro part'
    rw [List.append_assoc, List.append_assoc, List.append_assoc]
  have hregion : (s.extended storage (a ++ part ++ b)).storage.region
      (s.storage.bytes.length + a.length) part.length = .ok part := by
    rw [Storage.region, Storage.length, hlen]
    simp only [extended, hjoin]
    rw [if_pos (by simp only [List.length_append]; omega), Bytes.slice_middle]
  have hput : ∀ part' : Bytes, part'.length = part.length →
      Bytes.splice (s.storage.bytes ++ (a ++ part ++ b)) (s.storage.bytes.length + a.length) part'
        = s.storage.bytes ++ (a ++ part' ++ b) := by
    intro part' h
    rw [hjoin, hjoin, hlen, Bytes.splice_middle _ part b part' h]
  have hkeep := (hm part).1
  unfold within filled
  simp only [hregion]
  cases hrun : m part with
  | ok x part' =>
    rw [EntryM.after_ok hrun] at hkeep
    simp only [extended, hput part' hkeep]
  | error f part' =>
    rw [EntryM.after_error hrun] at hkeep
    simp only [extended, hput part' hkeep]

theorem within_return (slot : Slot) (m : EntryM Unit) (a : α) :
    (do within slot m; return a : StreamM α) = within slot (do m; return a) := by
  funext s
  simp only [within, Bind.bind, EStateM.bind]
  cases s.storage.region slot.offset slot.length with
  | error f => rfl
  | ok entry =>
    simp only
    cases m entry <;> rfl

/-! ## new entries -/

/-- a new entry of two parts, of which the caller gets the second -/
def handOut (front region : Bytes) : StreamM Slot := fun s =>
  match s.storage.allocate (front.length + region.length) with
  | .error f => .error (.fault f) s
  | .ok (_, storage) =>
    .ok ⟨s.storage.bytes.length + front.length, region.length⟩
      (s.extended storage (front ++ region))

theorem handOut_nil (s : MessageStream) (region : Bytes) :
    handOut [] region s = match s.storage.allocate region.length with
      | .error f => .error (.fault f) s
      | .ok (_, storage) =>
        .ok ⟨s.storage.bytes.length, region.length⟩ (s.extended storage region) := by
  simp only [handOut, List.length_nil, Nat.zero_add, Nat.add_zero, List.nil_append]

section
variable {s : MessageStream} (hroom : s.count.toNat < maxWord)
include hroom

/-- zeros of which the first get a header, and the others go to the caller -/
theorem allocate_header {n k : Nat} {write : EntryM Unit} {header : Bytes}
    (hk : EntryM.Keeps 0 write) (hw : write (Bytes.zeros n) = .ok () header) :
    (do
      let slot ← allocate (n + k)
      within ⟨slot.offset, n⟩ write
      return ⟨slot.offset + n, k⟩ : StreamM Slot) s = handOut header (Bytes.zeros k) s := by
  have hn : header.length = n := by
    rw [← EntryM.after_ok hw, (hk _).1, Bytes.length_zeros]
  have halloc := allocate_eq hroom (n + k)
  rw [handOut, hn, Bytes.length_zeros]
  cases h : s.storage.allocate (n + k) with
  | error f =>
    rw [h] at halloc
    exact StreamM.bind_error halloc
  | ok grown =>
    obtain ⟨offset, storage⟩ := grown
    rw [h] at halloc
    have hwithin : within ⟨s.storage.bytes.length, n⟩ write
        (s.extended storage (Bytes.zeros (n + k))) =
          .ok () (s.extended storage (header ++ Bytes.zeros k)) := by
      have hw' := within_extended s storage [] (Bytes.zeros n) (Bytes.zeros k) hk
      rwa [filled, hw, List.nil_append, Bytes.zeros_append, Bytes.length_zeros] at hw'
    exact (StreamM.bind_ok halloc).trans (StreamM.bind_ok hwithin)

theorem addStatic_eq (m : StaticMessage) : addStatic m s = handOut [] (Bytes.zeros m.size) s := by
  rw [addStatic, allocate_eq hroom, handOut_nil, Bytes.length_zeros]

theorem addDynamic_eq {size : Nat} (hsize : size ≤ maxWord) :
    addDynamic size s = handOut (Bytes.ofWord (UInt32.ofNat size)) (Bytes.zeros size) s := by
  have hw := EntryM.writeOne_eq (UInt32.ofNat size) []
  rw [List.append_nil, List.append_nil] at hw
  rw [addDynamic, if_neg (Nat.not_lt.mpr hsize)]
  exact allocate_header hroom (EntryM.keeps_writeOne _) hw

theorem addOrdered_eq (id : UInt32) {size : Nat} (hsize : size ≤ maxWord) :
    addOrdered id size s = handOut (Bytes.ofWord id ++ Bytes.ofWord (UInt32.ofNat size))
      (Bytes.zeros size) s := by
  have hw := EntryM.writeTwo_eq id (UInt32.ofNat size) []
  rw [List.append_nil, List.append_nil] at hw
  rw [addOrdered, if_neg (Nat.not_lt.mpr hsize)]
  exact allocate_header hroom (EntryM.keeps_writeTwo _ _) hw

/-- the caller gets the header too -/
theorem addChunked_eq {c : ChunkShape} {mask : UInt32} (hmask : c.declares mask = true) :
    addChunked c mask s = handOut [] (c.blank mask) s := by
  have hsize : 8 + (c.entrySize mask - 8) = c.entrySize mask :=
    Nat.add_sub_cancel' (c.headerSize_le_entrySize mask)
  have halloc := allocate_eq hroom (c.entrySize mask)
  rw [addChunked, if_pos hmask, handOut_nil, c.length_blank]
  cases h : s.storage.allocate (c.entrySize mask) with
  | error f =>
    rw [h] at halloc
    exact StreamM.bind_error halloc
  | ok grown =>
    obtain ⟨offset, storage⟩ := grown
    rw [h] at halloc
    have hwrite : EntryM.writeTwo (UInt32.ofNat (c.entrySize mask)) mask
        (Bytes.zeros (c.entrySize mask)) = .ok () (c.blank mask) := by
      have hw := EntryM.writeTwo_eq (UInt32.ofNat (c.entrySize mask)) mask
        (Bytes.zeros (c.entrySize mask - 8))
      rwa [Bytes.zeros_append, hsize] at hw
    have hwithin : within ⟨s.storage.bytes.length, c.entrySize mask⟩
        (EntryM.writeTwo (UInt32.ofNat (c.entrySize mask)) mask)
        (s.extended storage (Bytes.zeros (c.entrySize mask))) =
          .ok () (s.extended storage (c.blank mask)) := by
      have hw := within_extended s storage [] (Bytes.zeros (c.entrySize mask)) []
        (EntryM.keeps_writeTwo (UInt32.ofNat (c.entrySize mask)) mask)
      simp only [filled, hwrite, List.nil_append, List.append_nil, Bytes.length_zeros] at hw
      exact hw
    exact (StreamM.bind_ok halloc).trans (StreamM.bind_ok hwithin)

end

end MessageStream

/-! ## requests -/

namespace Request

/-- all that is done through the handle, the hooks of the request included -/
def steps (r : Request) (ops : List Entry.Op) : List Entry.Op :=
  match r.hooks with
  | none => ops
  | some h => h.defaults ++ h.patch ++ ops ++ h.patch

theorem fill_eq (resolve : Resolver) (r : Request) (ops : List Entry.Op) (e : Bytes) :
    ∃ a, r.fill resolve ops e = .ok a (Entry.run resolve e (r.steps ops)).2 := by
  unfold fill steps
  cases r.hooks with
  | none => exact ⟨_, rfl⟩
  | some h =>
    simp only [Entry.last_append]
    exact ⟨_, rfl⟩

theorem after_fill (resolve : Resolver) (r : Request) (ops : List Entry.Op) (e : Bytes) :
    (r.fill resolve ops).after e = (Entry.run resolve e (r.steps ops)).2 := by
  obtain ⟨a, h⟩ := fill_eq resolve r ops e
  exact EntryM.after_ok h

/-- it says the same when it is asked again -/
def Steady (r : Request) : Prop := r.again = r.size

instance (r : Request) : Decidable r.Steady := inferInstanceAs (Decidable (_ = _))

/-- the second answer is the size of a new entry of the first -/
theorem steady_iff {r : Request} : r.Steady ↔ (Bytes.zeros r.size).length = r.again := by
  rw [Bytes.length_zeros]
  exact eq_comm

theorem confirm_of_eq {r : Request} {n : Nat} (h : n = r.again) (e : Bytes) :
    r.confirm n e = .ok () e := by
  rw [confirm, if_pos h]
  rfl

theorem confirm_of_ne {r : Request} {n : Nat} (h : n ≠ r.again) (e : Bytes) :
    r.confirm n e = .error .requestSize e := by
  rw [confirm, if_neg h]
  rfl

theorem keeps_confirm (r : Request) (n : Nat) : EntryM.Keeps 0 (r.confirm n) := by
  unfold confirm
  split
  · exact .pure ()
  · exact .throw _

end Request

/-! ## plans -/

namespace Append

/-- what an append opens, what it refuses, and the entry that it adds: the part before the
caller's region, the region, and the steps on the region -/
structure Plan where
  target : Target
  refusal : Option Fault
  front : Bytes
  region : Bytes
  fill : Nat → EntryM Appended

namespace Plan

variable (resolve : Resolver)

/-- the caller's steps -/
def steps (ops : List Entry.Op) (n : Nat) : EntryM Appended := do
  return .entry n (← Entry.script resolve ops) none

/-- the same, between the hooks of a request, which first asks for the size of its entry again -/
def requested (r : Request) (ops : List Entry.Op) (n : Nat) : EntryM Appended := do
  r.confirm n
  let (results, log) ← r.fill resolve ops
  return .entry n results log

/-- an entry of the size that the request asks for by then is filled to the end -/
theorem requested_eq (r : Request) (ops : List Entry.Op) {n : Nat} (h : n = r.again) (e : Bytes) :
    ∃ answer, requested resolve r ops n e = .ok answer (Entry.run resolve e (r.steps ops)).2 := by
  obtain ⟨found, hfill⟩ := r.fill_eq resolve ops e
  refine ⟨.entry n found.1 found.2, ?_⟩
  simp only [requested, bind, EStateM.bind, Request.confirm_of_eq h, hfill]
  rfl

/-- an entry of another size is left as it is -/
theorem requested_error (r : Request) (ops : List Entry.Op) {n : Nat} (h : n ≠ r.again)
    (e : Bytes) : requested resolve r ops n e = .error .requestSize e := by
  simp only [requested, bind, EStateM.bind, Request.confirm_of_ne h]

def static (m : StaticMessage) (refusal : Option Fault) (fill : Nat → EntryM Appended) : Plan :=
  ⟨.message (.static m), refusal, [], Bytes.zeros m.size, fill⟩

def dynamic (m : DynamicMessage) (size : Nat) (fill : Nat → EntryM Appended) : Plan :=
  ⟨.message (.dynamic m), if maxWord < size then some (.dynamicTooLarge size) else none,
    Bytes.ofWord (UInt32.ofNat size), Bytes.zeros size, fill⟩

def ordered (id : UInt32) (size : Nat) (fill : Nat → EntryM Appended) : Plan :=
  ⟨.mixed, if maxWord < size then some (.orderedTooLarge size) else none,
    Bytes.ofWord id ++ Bytes.ofWord (UInt32.ofNat size), Bytes.zeros size, fill⟩

def chunked (m : ChunkedMessage) (mask : UInt32) (fill : Nat → EntryM Appended) : Plan :=
  ⟨.message (.chunked m),
    if m.shape.declares mask then none else some (.chunkMaskUndeclared mask), [],
    m.shape.blank mask, fill⟩

/-- the entry once the caller is done with it, or has failed -/
def entry (p : Plan) : Bytes := p.front ++ (p.fill p.region.length).after p.region

/-- what follows once the stream is open -/
def add (p : Plan) : StreamM Appended :=
  match p.refusal with
  | some f => MessageStream.fault f
  | none => do
    let slot ← MessageStream.handOut p.front p.region
    MessageStream.within slot (p.fill slot.length)

def run (p : Plan) : StreamM Appended := do
  MessageStream.openAs p.target
  p.add

end Plan

/-- bytes of no layout have no plan -/
def plan (resolve : Resolver) : Append → Option Plan
  | .raw _ _ => none
  | .static m ops => some (.static m none (Plan.steps resolve ops))
  | .dynamic m size ops => some (.dynamic m size (Plan.steps resolve ops))
  | .dynamicBytes m payload => some (.dynamic m payload.length fun _ => do
    EntryM.update (Entry.overwrite · 0 payload)
    return .stored)
  | .ordered m ops => some (.ordered m.id m.size (Plan.steps resolve ops))
  | .staticWith m r ops => some (.static m
    (if r.size = m.size then none else some .staticRequestSize) (Plan.requested resolve r ops))
  | .dynamicWith m r ops => some (.dynamic m r.size (Plan.requested resolve r ops))
  | .orderedWith r ops => some (.ordered r.id r.size (Plan.requested resolve r ops))
  | .chunked m mask ops => some (.chunked m mask fun _ => do
    return .chunked (← m.shape.run resolve ops))

end Append

/-! ## an append does what its plan says -/

namespace MessageStream

variable {s b : MessageStream} {schema : Schema} {t : Target}

theorem bind_keeps (h : s.bind schema = .ok b) :
    b.storage = s.storage ∧ b.count = s.count ∧ b.schema = some schema := by
  unfold bind at h
  split at h
  · cases h
    exact ⟨rfl, rfl, rfl⟩
  · rename_i actual hs
    split at h
    · rename_i heq
      cases h
      exact ⟨rfl, rfl, heq ▸ hs⟩
    · cases h

/-- opening fails and leaves the stream as it is, or binds its schema -/
theorem openAs_cases (t : Target) (s : MessageStream) :
    (∃ f, openAs t s = .error f s) ∨
      ∃ b, t.check = .ok () ∧ s.bind t.schema = .ok b ∧ openAs t s = .ok () b := by
  unfold openAs
  cases hc : t.check with
  | error f => exact .inl ⟨_, rfl⟩
  | ok u =>
    simp only [adopt]
    cases hb : s.bind t.schema with
    | error e => exact .inl ⟨_, rfl⟩
    | ok b => exact .inr ⟨b, trivial, rfl, rfl⟩

/-- what follows the opening only has to agree on streams of the same count -/
theorem openAs_congr {k k' : StreamM Appended}
    (h : ∀ b : MessageStream, b.count = s.count → k b = k' b) :
    (do openAs t; k) s = (do openAs t; k') s := by
  rcases openAs_cases t s with ⟨f, hf⟩ | ⟨b, -, hb, hopen⟩
  · rw [StreamM.bind_error hf, StreamM.bind_error hf]
  · rw [StreamM.bind_ok hopen, StreamM.bind_ok hopen]
    exact h b (bind_keeps hb).2.1

section
variable (hroom : s.count.toNat < maxWord) (fill : Nat → EntryM Appended)
include hroom

theorem static_add (m : StaticMessage) :
    (do let slot ← addStatic m; within slot (fill slot.length) : StreamM Appended) s =
      (Append.Plan.static m none fill).add s :=
  StreamM.bind_congr (addStatic_eq hroom m)

theorem dynamic_add (m : DynamicMessage) (size : Nat) :
    (do let slot ← addDynamic size; within slot (fill slot.length) : StreamM Appended) s =
      (Append.Plan.dynamic m size fill).add s := by
  by_cases h : maxWord < size
  · rw [Append.Plan.dynamic, Append.Plan.add, if_pos h, addDynamic, if_pos h]
    rfl
  · rw [Append.Plan.dynamic, Append.Plan.add, if_neg h]
    exact StreamM.bind_congr (addDynamic_eq hroom (Nat.le_of_not_lt h))

theorem ordered_add (id : UInt32) (size : Nat) :
    (do let slot ← addOrdered id size; within slot (fill slot.length) : StreamM Appended) s =
      (Append.Plan.ordered id size fill).add s := by
  by_cases h : maxWord < size
  · rw [Append.Plan.ordered, Append.Plan.add, if_pos h, addOrdered, if_pos h]
    rfl
  · rw [Append.Plan.ordered, Append.Plan.add, if_neg h]
    exact StreamM.bind_congr (addOrdered_eq hroom id (Nat.le_of_not_lt h))

theorem chunked_add (m : ChunkedMessage) (mask : UInt32) :
    (do let slot ← addChunked m.shape mask; within slot (fill slot.length) : StreamM Appended) s =
      (Append.Plan.chunked m mask fill).add s := by
  by_cases h : m.shape.declares mask = true
  · rw [Append.Plan.chunked, Append.Plan.add, if_pos h]
    exact StreamM.bind_congr (addChunked_eq hroom h)
  · rw [Append.Plan.chunked, Append.Plan.add, if_neg h, addChunked, if_neg h]
    rfl

end

/-- **An append does what its plan says**, as long as there is room for one more entry. -/
theorem append_eq_run {resolve : Resolver} {a : Append} {p : Append.Plan}
    (h : a.plan resolve = some p) (hroom : s.count.toNat < maxWord) :
    append resolve a s = p.run s := by
  cases a with
  | raw size ops => cases h
  | static m ops =>
    cases h
    exact openAs_congr fun b hb => static_add (hb ▸ hroom) (Append.Plan.steps resolve ops) m
  | dynamic m size ops =>
    cases h
    exact openAs_congr fun b hb => dynamic_add (hb ▸ hroom) (Append.Plan.steps resolve ops) m size
  | dynamicBytes m payload =>
    cases h
    apply openAs_congr
    intro b hb
    rw [← dynamic_add (hb ▸ hroom) _ m payload.length]
    exact congrArg (fun k => (addDynamic payload.length >>= k) b)
      (funext fun slot => within_return slot _ _)
  | ordered m ops =>
    cases h
    exact openAs_congr fun b hb => ordered_add (hb ▸ hroom) (Append.Plan.steps resolve ops)
      m.id m.size
  | staticWith m r ops =>
    cases h
    apply openAs_congr
    intro b hb
    by_cases hs : r.size = m.size
    · rw [if_pos hs, if_pos hs]
      exact static_add (hb ▸ hroom) (Append.Plan.requested resolve r ops) m
    · rw [if_neg hs, if_neg hs]
      rfl
  | dynamicWith m r ops =>
    cases h
    exact openAs_congr fun b hb => dynamic_add (hb ▸ hroom) (Append.Plan.requested resolve r ops)
      m r.size
  | orderedWith r ops =>
    cases h
    exact openAs_congr fun b hb => ordered_add (hb ▸ hroom) (Append.Plan.requested resolve r ops)
      r.id r.size
  | chunked m mask ops =>
    cases h
    exact openAs_congr fun b hb => chunked_add (hb ▸ hroom)
      (fun _ => do return .chunked (← m.shape.run resolve ops)) m mask

end MessageStream

namespace Append

/-! ## what it leaves of the stream -/

namespace Plan

variable {p : Plan} {s b : MessageStream} (hk : ∀ n, EntryM.Keeps 0 (p.fill n))
include hk

theorem add_eq (hr : p.refusal = none) :
    p.add s = match s.storage.allocate (p.front.length + p.region.length) with
      | .error f => .error (.fault f) s
      | .ok (_, storage) =>
        MessageStream.filled (p.fill p.region.length) p.region fun part =>
          s.extended storage (p.front ++ part) := by
  simp only [add, hr]
  cases h : s.storage.allocate (p.front.length + p.region.length) with
  | error f =>
    refine StreamM.bind_error ?_
    simp only [MessageStream.handOut, h]
  | ok grown =>
    obtain ⟨offset, storage⟩ := grown
    have hand : MessageStream.handOut p.front p.region s =
        .ok ⟨s.storage.bytes.length + p.front.length, p.region.length⟩
          (s.extended storage (p.front ++ p.region)) := by
      simp only [MessageStream.handOut, h]
    refine (StreamM.bind_ok hand).trans ?_
    have hw := MessageStream.within_extended s storage p.front p.region [] (hk p.region.length)
    simp only [List.append_nil] at hw
    exact hw

/-- **All that a plan can come to**: it fails and leaves the stream as it was or as it was opened,
or it has added its entry and the rest is up to the caller's steps. -/
theorem run_cases (s : MessageStream) :
    (∃ f, p.run s = .error f s) ∨
      ∃ b, p.target.check = .ok () ∧ s.bind p.target.schema = .ok b ∧
        MessageStream.openAs p.target s = .ok () b ∧
        ((∃ f, p.run s = .error f b) ∨ p.refusal = none ∧ ∃ storage,
          p.run s = MessageStream.filled (p.fill p.region.length) p.region fun part =>
            b.extended storage (p.front ++ part)) := by
  rcases MessageStream.openAs_cases p.target s with ⟨f, hf⟩ | ⟨b, hcheck, hb, hopen⟩
  · exact .inl ⟨f, StreamM.bind_error hf⟩
  · refine .inr ⟨b, hcheck, hb, hopen, ?_⟩
    rw [run, StreamM.bind_ok hopen]
    cases hr : p.refusal with
    | some f =>
      simp only [add, hr]
      exact .inl ⟨_, rfl⟩
    | none =>
      rw [add_eq hk hr]
      cases b.storage.allocate (p.front.length + p.region.length) with
      | error f => exact .inl ⟨_, rfl⟩
      | ok grown => exact .inr ⟨rfl, grown.2, rfl⟩

/-- **What a plan leaves**: the stream as it was, opened, or opened with the entry at its end. -/
theorem after_run (s : MessageStream) :
    StreamM.after p.run s = s ∨
      ∃ b, p.target.check = .ok () ∧ s.bind p.target.schema = .ok b ∧
        (StreamM.after p.run s = b ∨ p.refusal = none ∧
          ∃ storage, StreamM.after p.run s = b.extended storage p.entry) := by
  rcases run_cases hk s with ⟨f, hf⟩ | ⟨b, hcheck, hb, -, hrun⟩
  · left
    rw [StreamM.after, hf]
  · refine .inr ⟨b, hcheck, hb, ?_⟩
    rcases hrun with ⟨f, hf⟩ | ⟨hr, storage, hadded⟩
    · left
      rw [StreamM.after, hf]
    · refine .inr ⟨hr, storage, ?_⟩
      rw [StreamM.after, hadded]
      simp only [MessageStream.filled, entry, EntryM.after]
      cases p.fill p.region.length p.region <;> rfl

/-- what a plan that is carried out has found, and what it leaves -/
theorem of_run_ok {s' : MessageStream} {answer : Appended} (h : p.run s = .ok answer s') :
    ∃ b storage part, s.bind p.target.schema = .ok b ∧ p.refusal = none ∧
      p.fill p.region.length p.region = .ok answer part ∧
      s' = b.extended storage (p.front ++ part) := by
  rcases run_cases hk s with ⟨f, hf⟩ | ⟨b, -, hb, -, ⟨f, hf⟩ | ⟨hr, storage, hadded⟩⟩
  · cases hf.symm.trans h
  · cases hf.symm.trans h
  · rw [hadded, MessageStream.filled] at h
    cases hfill : p.fill p.region.length p.region with
    | error f part =>
      rw [hfill] at h
      cases h
    | ok answer' part =>
      rw [hfill] at h
      cases h
      exact ⟨b, storage, part, hb, hr, rfl, rfl⟩

/-- where nothing stands against it, a plan is carried out -/
theorem run_ok {storage : Storage} {offset : Nat} {part : Bytes} {answer : Appended}
    (hcheck : p.target.check = .ok ()) (hb : s.bind p.target.schema = .ok b)
    (hr : p.refusal = none)
    (ha : s.storage.allocate (p.front.length + p.region.length) = .ok (offset, storage))
    (hf : p.fill p.region.length p.region = .ok answer part) :
    p.run s = .ok answer (b.extended storage (p.front ++ part)) := by
  have hopen : MessageStream.openAs p.target s = .ok () b := by
    simp only [MessageStream.openAs, hcheck, MessageStream.adopt, hb]
  rw [run, StreamM.bind_ok hopen, add_eq hk hr, (MessageStream.bind_keeps hb).1, ha]
  simp only [MessageStream.filled, hf]

end Plan

/-! ## what it adds is an entry -/

namespace Plan

variable {fill : Nat → EntryM Appended}

theorem length_fill (hk : ∀ n, EntryM.Keeps 0 (fill n)) (n : Nat) (region : Bytes) :
    ((fill n).after region).length = region.length := (hk n region).1

theorem static_isEntry (hk : ∀ n, EntryM.Keeps 0 (fill n)) {m : StaticMessage}
    {refusal : Option Fault} (hcheck : (static m refusal fill).target.check = .ok ()) :
    (Layout.static m.size).IsEntry (static m refusal fill).entry := by
  refine .static ?_ ?_
  · simp only [static, Target.check] at hcheck
    split at hcheck
    · cases hcheck
    · omega
  · show ([] ++ (fill _).after (Bytes.zeros m.size)).length = m.size
    rw [List.nil_append, length_fill hk, Bytes.length_zeros]

theorem dynamic_isEntry (hk : ∀ n, EntryM.Keeps 0 (fill n)) {m : DynamicMessage} {size : Nat}
    (hr : (dynamic m size fill).refusal = none) :
    Layout.dynamic.IsEntry (dynamic m size fill).entry := by
  have hlen : ((fill (Bytes.zeros size).length).after (Bytes.zeros size)).length = size := by
    rw [length_fill hk, Bytes.length_zeros]
  have hsize : size ≤ maxWord := by
    simp only [dynamic] at hr
    split at hr
    · cases hr
    · omega
  have h := @Layout.IsEntry.dynamic ((fill _).after (Bytes.zeros size)) (hlen ▸ hsize)
  rwa [hlen] at h

theorem ordered_isEntry (hk : ∀ n, EntryM.Keeps 0 (fill n)) {id : UInt32} {size : Nat}
    (hr : (ordered id size fill).refusal = none) :
    Layout.ordered.IsEntry (ordered id size fill).entry := by
  have hlen : ((fill (Bytes.zeros size).length).after (Bytes.zeros size)).length = size := by
    rw [length_fill hk, Bytes.length_zeros]
  have hsize : size ≤ maxWord := by
    simp only [ordered] at hr
    split at hr
    · cases hr
    · omega
  have h := @Layout.IsEntry.ordered id ((fill _).after (Bytes.zeros size)) (hlen ▸ hsize)
  rwa [hlen] at h

theorem take_blank (c : ChunkShape) (mask : UInt32) :
    (c.blank mask).take ChunkShape.headerSize = c.header mask :=
  List.take_left' (c.length_header mask)

/-- the header of a chunked entry lies in the caller's region, out of reach of its parts -/
theorem chunked_isEntry (hk : ∀ n, EntryM.Keeps ChunkShape.headerSize (fill n))
    {m : ChunkedMessage} {mask : UInt32} (hr : (chunked m mask fill).refusal = none)
    (hfits : m.shape.entrySize mask ≤ maxWord) :
    (Layout.chunked m.shape).IsEntry (chunked m mask fill).entry := by
  have hdeclared : m.shape.declares mask = true := by
    simp only [chunked] at hr
    split at hr
    · assumption
    · cases hr
  have hsize := Layout.toNat_ofNat_of_fits hfits
  have hheader := m.shape.headerSize_le_entrySize mask
  obtain ⟨hkeep, htake⟩ := hk (m.shape.blank mask).length (m.shape.blank mask)
  have hlen : (chunked m mask fill).entry.length = m.shape.entrySize mask :=
    hkeep.trans (m.shape.length_blank mask)
  rw [take_blank] at htake
  have hentry : (chunked m mask fill).entry =
      m.shape.header mask ++ (chunked m mask fill).entry.drop ChunkShape.headerSize := by
    rw [← htake]
    exact (List.take_append_drop _ _).symm
  rw [hentry]
  refine .chunked hdeclared hsize.symm ?_
  rw [hsize, List.length_drop, hlen]
  exact Nat.add_sub_cancel' hheader

end Plan

section
variable {resolve : Resolver} {a : Append} {p : Plan}

theorem keeps_fill (r : Request) (ops : List Entry.Op) :
    EntryM.Keeps 0 (r.fill resolve ops) := by
  intro e
  rw [r.after_fill]
  exact ⟨Entry.length_run resolve e _, rfl⟩

theorem keeps_steps (ops : List Entry.Op) (n : Nat) : EntryM.Keeps 0 (Plan.steps resolve ops n) :=
  .bind (Entry.keeps_script resolve ops) fun _ => .pure _

theorem keeps_requested (r : Request) (ops : List Entry.Op) (n : Nat) :
    EntryM.Keeps 0 (Plan.requested resolve r ops n) :=
  .bind (r.keeps_confirm n) fun _ => .bind (keeps_fill r ops) fun _ => .pure _

/-- the steps of every plan keep the length of the region -/
theorem keeps_of_plan (h : a.plan resolve = some p) (n : Nat) : EntryM.Keeps 0 (p.fill n) := by
  cases a with
  | raw size ops => cases h
  | static m ops => cases h; exact keeps_steps ops n
  | dynamic m size ops => cases h; exact keeps_steps ops n
  | dynamicBytes m payload =>
    cases h
    exact .bind (Entry.keeps_overwrite 0 payload) fun _ => .pure _
  | ordered m ops => cases h; exact keeps_steps ops n
  | staticWith m r ops => cases h; exact keeps_requested r ops n
  | dynamicWith m r ops => cases h; exact keeps_requested r ops n
  | orderedWith r ops => cases h; exact keeps_requested r ops n
  | chunked m mask ops =>
    cases h
    exact .bind (m.shape.keeps_run resolve ops).zero fun _ => .pure _

/-- a chunked entry has a size that its header can hold -/
def Fits : Append → Prop
  | .chunked m mask _ => m.shape.entrySize mask ≤ maxWord
  | _ => True

/-- **What a plan adds is an entry of the layout that it opens**, whatever the caller does to its
region. -/
theorem isEntry (h : a.plan resolve = some p) (hfits : a.Fits)
    (hcheck : p.target.check = .ok ()) (hr : p.refusal = none) :
    p.target.layout.IsEntry p.entry := by
  have hk := keeps_of_plan h
  cases a with
  | raw size ops => cases h
  | static m ops => cases h; exact Plan.static_isEntry hk hcheck
  | dynamic m size ops => cases h; exact Plan.dynamic_isEntry hk hr
  | dynamicBytes m payload => cases h; exact Plan.dynamic_isEntry hk hr
  | ordered m ops => cases h; exact Plan.ordered_isEntry hk hr
  | staticWith m r ops => cases h; exact Plan.static_isEntry hk hcheck
  | dynamicWith m r ops => cases h; exact Plan.dynamic_isEntry hk hr
  | orderedWith r ops => cases h; exact Plan.ordered_isEntry hk hr
  | chunked m mask ops =>
    cases h
    exact Plan.chunked_isEntry
      (fun _ => .bind (m.shape.keeps_run resolve ops) fun _ => .pure _) hr hfits

end
end Append
end TaggedStream
