import TaggedStream.Proofs.Parts

/-!
# What an entry carries

A parcel is what a caller puts into one entry of a layout: a payload, an id with a payload, or the
parts of a chunked entry.

* `Layout.Parcel`      the parcels of a layout; `Fits`, `encode` and `parcelSize`
* `Layout.Shows`       an item in which a reader finds a parcel
* `Layout.isEntry_encode`, `Layout.shows_decode`   parcels make entries, and entries show them
* `Append.Writes`      an append that leaves a parcel in its entry, however it fills the handle
* `Append.direct`      the plainest append that does
* `Append.append_of_writes`   an append that writes a parcel succeeds and adds its bytes
-/

namespace TaggedStream

/-! ## parcels -/

namespace Layout

/-- what the caller puts into an entry -/
abbrev Parcel : Layout → Type
  | ordered => OrderedMessage
  | chunked _ => ChunkContent
  | _ => Bytes

/-- the parcel makes an entry: it has the size of its type, or one that a header can hold -/
def Fits : (l : Layout) → l.Parcel → Prop
  | static size, p => 0 < size ∧ p.length = size
  | dynamic, p => p.length ≤ maxWord
  | ordered, p => p.payload.length ≤ maxWord
  | chunked shape, p => p.Fits shape ∧ shape.entrySize p.mask ≤ maxWord

def encode : (l : Layout) → l.Parcel → Bytes
  | static _, p => p
  | dynamic, p => Bytes.ofWord (UInt32.ofNat p.length) ++ p
  | ordered, p => Bytes.ofWord p.id ++ Bytes.ofWord (UInt32.ofNat p.payload.length) ++ p.payload
  | chunked shape, p => p.encode shape

/-- the bytes that an entry with the parcel takes -/
def parcelSize : (l : Layout) → l.Parcel → Nat
  | static size, _ => size
  | dynamic, p => 4 + p.length
  | ordered, p => 8 + p.payload.length
  | chunked shape, p => shape.entrySize p.mask

/-- what the reader of an item finds in it; of a chunked entry it gets all bytes, and asks for the
size, the mask, the base and the chunks one by one -/
def Shows : (l : Layout) → l.Item → l.Parcel → Prop
  | static _, item, p => item = p
  | dynamic, item, p => item = p
  | ordered, item, p => item = p
  | chunked shape, item, p =>
    item = p.encode shape ∧
      ChunkShape.declaredSize item = .ok (UInt32.ofNat (shape.entrySize p.mask)) ∧
      ChunkShape.mask item = .ok p.mask ∧ shape.base item = .ok p.base ∧
      ∀ i flag, i < shape.chunkSizes.length → flag.toNat = 1 <<< i →
        ∃ chunk, p.chunks[i]? = some chunk ∧ shape.chunk? item flag = .ok chunk

variable {l : Layout} {p : l.Parcel}

theorem length_encode (h : l.Fits p) : (l.encode p).length = l.parcelSize p := by
  cases l with
  | static size => exact h.2
  | dynamic =>
    show (Bytes.ofWord _ ++ _).length = _
    rw [List.length_append, Bytes.length_ofWord]
    rfl
  | ordered =>
    show (Bytes.ofWord _ ++ Bytes.ofWord _ ++ _).length = _
    rw [List.length_append, List.length_append, Bytes.length_ofWord, Bytes.length_ofWord]
    rfl
  | chunked shape => exact h.1.length_encode

/-- **A parcel makes an entry.** -/
theorem isEntry_encode (h : l.Fits p) : l.IsEntry (l.encode p) := by
  cases l with
  | static size => exact .static h.1 h.2
  | dynamic => exact .dynamic h
  | ordered => exact .ordered h
  | chunked shape =>
    obtain ⟨hfits, hsize⟩ := h
    have hw := toNat_ofNat_of_fits hsize
    refine .chunked hfits.declared hw.symm ?_
    have hlen := hfits.length_encode
    rw [ChunkContent.encode, List.length_append, ChunkShape.length_header] at hlen
    rw [hw]
    exact hlen

/-- **An entry shows the parcel that made it.** -/
theorem shows_decode (h : l.Fits p) : l.Shows (l.decode (l.encode p)) p := by
  cases l with
  | static size => rfl
  | dynamic =>
    show (Bytes.ofWord (UInt32.ofNat _) ++ _).drop 4 = p
    exact List.drop_left' (Bytes.length_ofWord _)
  | ordered =>
    obtain ⟨id, payload⟩ := p
    have hdrop : (Bytes.ofWord id ++ Bytes.ofWord (UInt32.ofNat payload.length) ++ payload).drop 8
        = payload := List.drop_left' (length_pair _ _)
    show OrderedMessage.mk (Bytes.word _ 0) (List.drop 8 _) = OrderedMessage.mk id payload
    rw [OrderedMessage.mk.injEq]
    exact ⟨word_zero_of_pair id _ payload, hdrop⟩
  | chunked shape =>
    refine ⟨rfl, ChunkContent.declaredSize_encode h.1, ChunkContent.mask_encode h.1,
      ChunkContent.base_encode h.1, ?_⟩
    intro i flag hi hflag
    exact ChunkContent.chunk?_encode h.1 hflag hi

/-- there is one item that shows the parcel of an entry -/
theorem shows_iff (h : l.Fits p) {item : l.Item} :
    l.Shows item p ↔ item = l.decode (l.encode p) := by
  refine ⟨?_, fun hitem => hitem ▸ shows_decode h⟩
  intro hshows
  cases l with
  | static size => exact hshows
  | dynamic => exact Eq.trans hshows (shows_decode h).symm
  | ordered => exact Eq.trans hshows (shows_decode h).symm
  | chunked shape => exact hshows.1

end Layout

/-! ## appends that write a parcel -/

theorem MessageStream.exists_bind {s : MessageStream} {schema : Schema}
    (h : s.schema = none ∨ s.schema = some schema) : ∃ b, s.bind schema = .ok b := by
  unfold bind
  rcases h with h | h
  · rw [h]
    exact ⟨_, rfl⟩
  · rw [h]
    exact ⟨s, if_pos rfl⟩

namespace Append

variable (resolve : Resolver)

/-- what is left in the handle of a new entry of `n` bytes -/
abbrev leaves (n : Nat) (ops : List Entry.Op) : Bytes := (Entry.run resolve (Bytes.zeros n) ops).2

theorem length_leaves (n : Nat) (ops : List Entry.Op) : (leaves resolve n ops).length = n :=
  (Entry.length_run resolve _ ops).trans (Bytes.length_zeros n)

/-- a steady request finds a new entry of the size that it has asked for as it should be -/
theorem requested_blank {r : Request} (h : r.Steady) (ops : List Entry.Op) {n : Nat}
    (hn : r.size = n) : ∃ answer,
    Plan.requested resolve r ops (Bytes.zeros n).length (Bytes.zeros n)
      = .ok answer (leaves resolve n (r.steps ops)) :=
  Plan.requested_eq resolve r ops (by rw [Bytes.length_zeros, h, hn]) _

/-- the append asks for an entry of the size of the parcel, a request of its own both times it is
asked, and its steps leave the parcel in it -/
inductive Writes : (t : Target) → Append → t.layout.Parcel → Prop
  | static {m : StaticMessage} {ops : List Entry.Op} :
      Writes (.message (.static m)) (.static m ops) (leaves resolve m.size ops)
  | staticWith {m : StaticMessage} {r : Request} {ops : List Entry.Op} (hsteady : r.Steady)
      (hsize : r.size = m.size) :
      Writes (.message (.static m)) (.staticWith m r ops) (leaves resolve m.size (r.steps ops))
  | dynamic {m : DynamicMessage} {size : Nat} {ops : List Entry.Op} :
      Writes (.message (.dynamic m)) (.dynamic m size ops) (leaves resolve size ops)
  | dynamicBytes {m : DynamicMessage} {payload : Bytes} :
      Writes (.message (.dynamic m)) (.dynamicBytes m payload) payload
  | dynamicWith {m : DynamicMessage} {r : Request} {ops : List Entry.Op} (hsteady : r.Steady) :
      Writes (.message (.dynamic m)) (.dynamicWith m r ops) (leaves resolve r.size (r.steps ops))
  | ordered {m : StaticMessage} {ops : List Entry.Op} :
      Writes .mixed (.ordered m ops) (OrderedMessage.mk m.id (leaves resolve m.size ops))
  | orderedWith {r : Request} {ops : List Entry.Op} (hsteady : r.Steady) :
      Writes .mixed (.orderedWith r ops)
        (OrderedMessage.mk r.id (leaves resolve r.size (r.steps ops)))
  | chunked {m : ChunkedMessage} {mask : UInt32} {ops : List ChunkShape.Op} :
      Writes (.message (.chunked m)) (.chunked m mask ops)
        ((ChunkContent.blank m.shape mask).run resolve m.shape ops)

variable {resolve : Resolver} {t : Target} {a : Append} {p : t.layout.Parcel}

theorem dynamic_encode {m : DynamicMessage} {size : Nat} {fill : Nat → EntryM Appended}
    {payload : Bytes} (hlen : payload.length = size) (hfit : payload.length ≤ maxWord) :
    (Plan.dynamic m size fill).refusal = none ∧
      (Plan.dynamic m size fill).front ++ payload = Layout.dynamic.encode payload := by
  subst hlen
  exact ⟨if_neg (Nat.not_lt.mpr hfit), rfl⟩

theorem ordered_encode {id : UInt32} {size : Nat} {fill : Nat → EntryM Appended} {payload : Bytes}
    (hlen : payload.length = size) (hfit : payload.length ≤ maxWord) :
    (Plan.ordered id size fill).refusal = none ∧
      (Plan.ordered id size fill).front ++ payload
        = Layout.ordered.encode (OrderedMessage.mk id payload) := by
  subst hlen
  exact ⟨if_neg (Nat.not_lt.mpr hfit), rfl⟩

/-- the plan of an append that writes a parcel refuses nothing and leaves its bytes -/
theorem Writes.exists_plan (h : Writes resolve t a p) (hfit : t.layout.Fits p) :
    ∃ plan answer part, a.plan resolve = some plan ∧ plan.target = t ∧
      plan.fill plan.region.length plan.region = .ok answer part ∧
      plan.refusal = none ∧ plan.front ++ part = t.layout.encode p := by
  cases h with
  | static => exact ⟨_, _, _, rfl, rfl, rfl, rfl, rfl⟩
  | @staticWith m r ops hsteady hsize =>
    obtain ⟨answer, hfill⟩ := requested_blank resolve hsteady ops hsize
    exact ⟨_, _, _, rfl, rfl, hfill, if_pos hsize, rfl⟩
  | @dynamic m size ops =>
    exact ⟨_, _, _, rfl, rfl, rfl, dynamic_encode (length_leaves resolve size ops) hfit⟩
  | @dynamicBytes m payload =>
    refine ⟨_, .stored, payload, rfl, rfl, ?_, dynamic_encode rfl hfit⟩
    have hlast := Entry.overwrite_middle [] (Bytes.zeros payload.length) [] payload
      (Bytes.length_zeros _)
    rw [List.append_nil, List.append_nil] at hlast
    show (do EntryM.update (Entry.overwrite · 0 payload); return Appended.stored : EntryM Appended)
      (Bytes.zeros payload.length) = _
    simp only [Bind.bind, EStateM.bind, EntryM.update]
    rw [show Entry.overwrite (Bytes.zeros payload.length) 0 payload = .ok payload from hlast]
    rfl
  | @dynamicWith m r ops hsteady =>
    obtain ⟨answer, hfill⟩ := requested_blank resolve hsteady ops rfl
    exact ⟨_, _, _, rfl, rfl, hfill, dynamic_encode (length_leaves resolve r.size _) hfit⟩
  | @ordered m ops =>
    exact ⟨_, _, _, rfl, rfl, rfl, ordered_encode (length_leaves resolve m.size ops) hfit⟩
  | @orderedWith r ops hsteady =>
    obtain ⟨answer, hfill⟩ := requested_blank resolve hsteady ops rfl
    exact ⟨_, _, _, rfl, rfl, hfill, ordered_encode (length_leaves resolve r.size _) hfit⟩
  | @chunked m mask ops =>
    have hdeclared : m.shape.declares mask = true := by
      have h := hfit.1.declared
      rwa [ChunkContent.mask_run] at h
    obtain ⟨results, hrun⟩ :=
      ChunkContent.run_encode resolve (ChunkContent.fits_blank hdeclared) ops
    rw [ChunkContent.encode_blank] at hrun
    refine ⟨_, .chunked results, _, rfl, rfl, ?_, if_pos hdeclared, rfl⟩
    show (do return .chunked (← m.shape.run resolve ops) : EntryM Appended) (m.shape.blank mask) = _
    simp only [Bind.bind, EStateM.bind, hrun]
    rfl

/-- the parcel written in one go, a chunked one part by part -/
def direct : (t : Target) → t.layout.Parcel → Append
  | .message (.static m), p => .static m [.overwrite 0 p]
  | .message (.dynamic m), p => .dynamicBytes m p
  | .message (.chunked m), p => .chunked m p.mask p.writes
  | .mixed, p => .orderedWith ⟨p.payload.length, p.id, none⟩ [.overwrite 0 p.payload]

theorem leaves_overwrite {payload : Bytes} {n : Nat} (h : payload.length = n) :
    leaves resolve n [.overwrite 0 payload] = payload :=
  Entry.last_overwrite resolve (h.trans (Bytes.length_zeros n).symm)

/-- **Every parcel can be written.** -/
theorem writes_direct (resolve : Resolver) (hfit : t.layout.Fits p) :
    Writes resolve t (direct t p) p := by
  cases t with
  | message m =>
    cases m with
    | static m =>
      have hw : Writes resolve (.message (.static m)) (.static m [.overwrite 0 p])
          (leaves resolve m.size [.overwrite 0 p]) := .static
      have hlast : leaves resolve m.size [.overwrite 0 p] = p := leaves_overwrite hfit.2
      rwa [hlast] at hw
    | dynamic m => exact .dynamicBytes
    | chunked m =>
      have hw : Writes resolve (.message (.chunked m)) (.chunked m p.mask p.writes)
          ((ChunkContent.blank m.shape p.mask).run resolve m.shape p.writes) := .chunked
      rwa [ChunkContent.run_writes resolve hfit.1] at hw
  | mixed =>
    obtain ⟨id, payload⟩ := p
    have hw : Writes resolve .mixed
        (.orderedWith ⟨payload.length, id, none⟩ [.overwrite 0 payload])
        (OrderedMessage.mk id (leaves resolve payload.length [.overwrite 0 payload])) :=
      .orderedWith rfl
    rwa [leaves_overwrite rfl] at hw

/-- **An append that writes a parcel adds its bytes**, given the storage for them. -/
theorem append_of_writes {s : MessageStream} {offset : Nat} {storage : Storage}
    (h : Writes resolve t a p) (hfit : t.layout.Fits p) (hcheck : t.check = .ok ())
    (hs : s.schema = none ∨ s.schema = some t.schema) (hroom : s.count.toNat < maxWord)
    (ha : s.storage.allocate (t.layout.parcelSize p) = .ok (offset, storage)) :
    ∃ answer b, s.bind t.schema = .ok b ∧
      MessageStream.append resolve a s = .ok answer (b.extended storage (t.layout.encode p)) := by
  obtain ⟨plan, answer, part, hplan, rfl, hfill, hr, hbytes⟩ := h.exists_plan hfit
  obtain ⟨b, hb⟩ := MessageStream.exists_bind hs
  have hk := keeps_of_plan hplan
  have hlen : plan.front.length + plan.region.length = plan.target.layout.parcelSize p := by
    have hpart := (hk plan.region.length plan.region).1
    rw [EntryM.after_ok hfill] at hpart
    rw [← hpart, ← List.length_append, hbytes, Layout.length_encode hfit]
  rw [← hlen] at ha
  refine ⟨answer, b, hb, ?_⟩
  rw [MessageStream.append_eq_run hplan hroom, ← hbytes]
  exact Plan.run_ok hk hcheck hb hr ha hfill

end Append
end TaggedStream
