import Mathlib.Algebra.Order.BigOperators.Group.List
import Mathlib.Algebra.Order.Group.Nat
import TaggedStream.Proofs.Batch
import TaggedStream.Proofs.Items
import TaggedStream.Proofs.RoundTrip

/-!
# Streams in streams

Streams nest to any depth: an entry of a batch can hold a stream whose entries are batches again.
A tree of streams is written from its leaves up, every stream frozen before the one around it is
written, and read from the root down, every stream opened where the one around it holds it.

* `StreamTree`           the tree: at a leaf any stream of entries, at a node a batch
* `StreamTree.fold`, `StreamTree.byEntries`   recursion and induction over it
* `StreamTree.write`     from the leaves up, with every step on every entry
* `Views`, `Views.read`  what is opened as what, and reading from the root down
* `StreamTree.content`   the bytes of a tree, where `write_eq` and `read_content` meet
* `BatchEntry.reading_payload`   one entry comes back if what is nested in it does
* `nested_round_trip`    every tree comes back as it was
-/

namespace TaggedStream

/-! ## entries of any layout -/

namespace Layout

/-- the entry that an item was decoded from -/
def entryOf : (l : Layout) → l.Item → Bytes
  | static _, item => item
  | chunked _, item => item
  | dynamic, item => Bytes.ofWord (UInt32.ofNat item.length) ++ item
  | ordered, item =>
    Bytes.ofWord item.id ++ Bytes.ofWord (UInt32.ofNat item.payload.length) ++ item.payload

theorem decode_entryOf (l : Layout) (item : l.Item) : l.decode (l.entryOf item) = item := by
  cases l with
  | static size => rfl
  | chunked shape => rfl
  | dynamic => exact List.drop_left' (Bytes.length_ofWord _)
  | ordered =>
    obtain ⟨id, payload⟩ := item
    show OrderedMessage.mk (Bytes.word _ 0) (List.drop 8 _) = _
    rw [OrderedMessage.mk.injEq]
    exact ⟨word_zero_of_pair id _ payload, List.drop_left' (length_pair _ _)⟩

theorem entryOf_decode {l : Layout} {e : Bytes} (h : l.IsEntry e) : l.entryOf (l.decode e) = e := by
  cases h with
  | static pos len => rfl
  | @dynamic payload fits =>
    have hdrop : (Bytes.ofWord (UInt32.ofNat payload.length) ++ payload).drop 4 = payload :=
      List.drop_left' (Bytes.length_ofWord _)
    show Bytes.ofWord (UInt32.ofNat (List.drop 4 _).length) ++ List.drop 4 _ = _
    rw [hdrop]
  | @ordered id payload fits =>
    have hitem := decode_entryOf .ordered ⟨id, payload⟩
    exact congrArg ordered.entryOf hitem
  | chunked declared runtime len => rfl

end Layout

/-! ## trees -/

inductive StreamTree where
  /-- entries of the target's layout, as readers get them -/
  | leaf (t : Target) (items : List t.layout.Item)
  | batch (entries : List (BatchEntry StreamTree))

namespace StreamTree

section
variable {β : Type}

mutual

/-- from the leaves up -/
def fold (leaf : (t : Target) → List t.layout.Item → β) (batch : List (BatchEntry β) → β) :
    StreamTree → β
  | .leaf t items => leaf t items
  | .batch entries => batch (foldEntries leaf batch entries)

def foldEntries (leaf : (t : Target) → List t.layout.Item → β)
    (batch : List (BatchEntry β) → β) : List (BatchEntry StreamTree) → List (BatchEntry β)
  | [] => []
  | ⟨name, values, none⟩ :: entries => ⟨name, values, none⟩ :: foldEntries leaf batch entries
  | ⟨name, values, some sub⟩ :: entries =>
    ⟨name, values, some (fold leaf batch sub)⟩ :: foldEntries leaf batch entries

end

variable (leaf : (t : Target) → List t.layout.Item → β) (batch : List (BatchEntry β) → β)

theorem foldEntries_eq (entries : List (BatchEntry StreamTree)) :
    foldEntries leaf batch entries = entries.map (·.map (fold leaf batch)) := by
  induction entries with
  | nil => rfl
  | cons e entries ih =>
    obtain ⟨name, values, nested⟩ := e
    cases nested with
    | none => exact congrArg _ ih
    | some sub => exact congrArg _ ih

theorem fold_batch (entries : List (BatchEntry StreamTree)) :
    fold leaf batch (.batch entries) = batch (entries.map (·.map (fold leaf batch))) := by
  rw [fold, foldEntries_eq]

end

/-- a tree has a property if its leaves do, and every batch whose nested streams do -/
theorem byEntries {motive : StreamTree → Prop} (leaf : ∀ t items, motive (.leaf t items))
    (batch : ∀ entries, (∀ e ∈ entries, ∀ sub, e.nested = some sub → motive sub) →
      motive (.batch entries)) (tree : StreamTree) : motive tree := by
  refine @StreamTree.rec motive
    (fun entries => ∀ e ∈ entries, ∀ sub, e.nested = some sub → motive sub)
    (fun e => ∀ sub, e.nested = some sub → motive sub)
    (fun nested => ∀ sub, nested = some sub → motive sub) leaf batch nofun ?_
    (fun _ _ _ h => h) nofun ?_ tree
  · intro e entries he hes e' he'
    rcases List.mem_cons.mp he' with rfl | h
    · exact he
    · exact hes e' h
  · intro sub h _ he
    cases he
    exact h

/-- streams that are not empty, and entries that are some of their layout -/
inductive WellFormed : StreamTree → Prop
  | leaf {t : Target} {items : List t.layout.Item} (some : items ≠ [])
      (entries : ∀ item ∈ items, t.layout.IsEntry (t.layout.entryOf item)) :
      WellFormed (.leaf t items)
  | batch {entries : List (BatchEntry StreamTree)} (some : entries ≠ [])
      (nested : ∀ e ∈ entries, ∀ sub, e.nested = .some sub → WellFormed sub) :
      WellFormed (.batch entries)

end StreamTree

/-! ## writing -/

namespace MessageStream

/-- appends one after the other, up to the first with a step that fails -/
def writeAll (resolve : Resolver) : List Append → StreamM Unit
  | [] => pure ()
  | a :: as => do
    let done ← append resolve a
    match done.failure? with
    | some f => throw f
    | none => writeAll resolve as

/-- a new stream with these entries, frozen -/
def writeBatch (resolve : Resolver) (m : DynamicMessage) (fresh : MessageStream)
    (entries : List (BatchEntry FrozenStream)) : Except Failure FrozenStream :=
  match writeAll resolve (entries.map fun e => (e.map FrozenStream.content).append m) fresh with
  | .ok () full => .ok full.freeze
  | .error f _ => .error f

end MessageStream

theorem BatchEntry.map_map {α β γ : Type} (f : α → β) (g : β → γ) (e : BatchEntry α) :
    (e.map f).map g = e.map (g ∘ f) := by
  rw [map, map, map, Option.map_map]

theorem BatchEntry.map_id {α : Type} (e : BatchEntry α) : e.map id = e := by
  rw [map, Option.map_id_fun, id]

/-- an entry whose nested stream may have failed -/
def BatchEntry.sequence {ε α : Type} (e : BatchEntry (Except ε α)) : Except ε (BatchEntry α) :=
  match e.nested with
  | none => .ok ⟨e.name, e.values, none⟩
  | some found => found.map fun a => ⟨e.name, e.values, some a⟩

namespace StreamTree

/-- the content of a leaf -/
def leafContent (t : Target) (items : List t.layout.Item) : Content :=
  ⟨some t.schema, UInt32.ofNat items.length, items.flatMap t.layout.entryOf⟩

/-- **Writing a tree from the leaves up**: nested streams are written and frozen, then the entries
that hold them are added to a new stream of the batch's message type. -/
def write (resolve : Resolver) (m : DynamicMessage) (fresh : MessageStream) :
    StreamTree → Except Failure FrozenStream :=
  fold (fun t items => .ok ⟨leafContent t items, fresh.version⟩) fun entries => do
    let frozen ← entries.mapM BatchEntry.sequence
    MessageStream.writeBatch resolve m fresh frozen

end StreamTree

/-! ## reading -/

/-- what an entry holds, its nested stream read as it asks for -/
def BatchEntry.reading {α : Type} (payload : Bytes) (nested : Content → Except Failure α) :
    Except Failure (BatchEntry α) := do
  let entry ← (ofPayload payload).mapError .error
  (entry.map nested).sequence

/-- what a stream is opened as, and the stream nested in its entry at each index -/
inductive Views where
  | leaf (t : Target)
  | batch (nested : Nat → Views)

namespace Views

/-- **Reading from the root down**: a batch is opened as a stream of its message type, and what its
entries hold as the views say. -/
def read (m : DynamicMessage) (tier : Tier) : Views → Source → Except Failure StreamTree
  | .leaf t, source => do
    let bound ← t.bind source
    let items ← (tier.items t.layout bound.toContent).mapError .error
    return .leaf t items
  | .batch nested, source => do
    let bound ← (Target.message (.dynamic m)).bind source
    let payloads ← (tier.items .dynamic bound.toContent).mapError .error
    let entries ← payloads.zipIdx.mapM fun (payload, i) =>
      BatchEntry.reading payload fun c => (nested i).read m tier (.content c)
    return .batch entries

/-- the view of what the entry at an index holds; where it holds nothing any view will do -/
def within (entries : List (BatchEntry Views)) (i : Nat) : Views :=
  (entries[i]?.bind (·.nested)).getD (.leaf .mixed)

end Views

/-- the views that suit a tree -/
def StreamTree.views : StreamTree → Views :=
  fold (fun t _ => .leaf t) fun entries => .batch (Views.within entries)

/-! ## what is written -/

namespace StreamTree

/-- the bytes of an entry whose nested stream has so many -/
def entryBytes (e : BatchEntry Nat) : Nat :=
  4 + (BatchRequest.fixedSize + (Text.encode e.name).length + e.values.length * 4
    + e.nested.getD 0)

/-- the bytes of the stream at the root -/
def size : StreamTree → Nat :=
  fold (fun t items => (items.flatMap t.layout.entryOf).length) fun entries =>
    (entries.map entryBytes).sum

/-- the content of the stream at the root -/
def content (m : DynamicMessage) : StreamTree → Content :=
  fold leafContent fun entries =>
    ⟨some (Message.dynamic m).schema, UInt32.ofNat entries.length,
      (entries.map BatchEntry.payload).flatMap Layout.dynamic.encode⟩

variable {m : DynamicMessage}

theorem size_batch (entries : List (BatchEntry StreamTree)) :
    (batch entries).size = (entries.map fun e => entryBytes (e.map size)).sum := by
  rw [size, fold_batch, List.map_map]
  rfl

theorem content_batch (entries : List (BatchEntry StreamTree)) :
    (batch entries).content m = ⟨some (Message.dynamic m).schema, UInt32.ofNat entries.length,
      (entries.map fun e => (e.map (content m)).payload).flatMap Layout.dynamic.encode⟩ := by
  rw [content, fold_batch, List.length_map, List.map_map]
  rfl

theorem length_encode_payload (e : BatchEntry Content) :
    (Layout.dynamic.encode e.payload).length = 4 + e.request.size := by
  show (Bytes.ofWord _ ++ e.payload).length = _
  rw [List.length_append, Bytes.length_ofWord, e.length_payload]

/-- the entry as it is written takes as many bytes as counted -/
theorem entryBytes_eq {e : BatchEntry StreamTree}
    (h : ∀ sub, e.nested = some sub → (sub.content m).body.length = sub.size) :
    4 + (e.map (content m)).request.size = entryBytes (e.map size) := by
  obtain ⟨name, values, nested⟩ := e
  cases nested with
  | none => rfl
  | some sub =>
    have hsub := h sub rfl
    show 4 + (BatchRequest.fixedSize + _ + _ + (sub.content m).body.length) = _
    rw [hsub]
    rfl

theorem length_body_content (tree : StreamTree) : (tree.content m).body.length = tree.size := by
  induction tree using StreamTree.byEntries with
  | leaf t items => rfl
  | batch entries ih =>
    rw [content_batch, size_batch, List.length_flatMap, List.map_map]
    apply congrArg List.sum
    apply List.map_congr_left
    intro e he
    exact (length_encode_payload _).trans (entryBytes_eq (ih e he))

/-! ### a stream is at least as long as it has entries, and as what is nested in it -/

theorem length_le_size_leaf {t : Target} {items : List t.layout.Item}
    (h : ∀ item ∈ items, t.layout.IsEntry (t.layout.entryOf item)) :
    items.length ≤ (leaf t items).size := by
  have hone : (items.map fun item => (t.layout.entryOf item).length).length
      ≤ (items.map fun item => (t.layout.entryOf item).length).sum := by
    apply List.length_le_sum_of_one_le
    intro n hn
    obtain ⟨item, hitem, rfl⟩ := List.mem_map.mp hn
    exact (h item hitem).length_pos
  rw [List.length_map] at hone
  show _ ≤ (items.flatMap t.layout.entryOf).length
  rwa [List.length_flatMap]

theorem length_le_size_batch (entries : List (BatchEntry StreamTree)) :
    entries.length ≤ (batch entries).size := by
  have hone : (entries.map fun e => entryBytes (e.map size)).length
      ≤ (entries.map fun e => entryBytes (e.map size)).sum := by
    apply List.length_le_sum_of_one_le
    intro n hn
    obtain ⟨e, -, rfl⟩ := List.mem_map.mp hn
    unfold entryBytes
    omega
  rwa [List.length_map, ← size_batch] at hone

variable {entries : List (BatchEntry StreamTree)} {e : BatchEntry StreamTree}

theorem entryBytes_le_size (he : e ∈ entries) : entryBytes (e.map size) ≤ (batch entries).size := by
  rw [size_batch]
  exact List.le_sum_of_mem (List.mem_map_of_mem he)

theorem size_le_of_nested (he : e ∈ entries) {sub : StreamTree} (hsub : e.nested = some sub) :
    sub.size ≤ (batch entries).size := by
  refine Nat.le_trans ?_ (entryBytes_le_size he)
  have hnested : (e.map size).nested.getD 0 = sub.size := by
    rw [BatchEntry.map, hsub]
    rfl
  rw [entryBytes, hnested]
  omega

/-- a stream that is not empty is one that an entry can store -/
theorem WellFormed.stored {tree : StreamTree} (h : tree.WellFormed) (hsize : tree.size ≤ maxWord) :
    (tree.content m).isEmpty = false ∧ ∃ schema, (tree.content m).schema = some schema := by
  have hcount : ∀ n, 0 < n → n ≤ maxWord → (UInt32.ofNat n == 0) = false := by
    intro n hpos hle
    rw [beq_eq_false_iff_ne]
    intro hzero
    have hn := Layout.toNat_ofNat_of_fits hle
    rw [hzero] at hn
    exact Nat.ne_of_gt hpos hn.symm
  cases h with
  | leaf some entries =>
    refine ⟨hcount _ (List.length_pos_iff.mpr some) ?_, _, rfl⟩
    exact Nat.le_trans (length_le_size_leaf entries) hsize
  | @batch entries some nested =>
    rw [content_batch]
    refine ⟨hcount _ (List.length_pos_iff.mpr some) ?_, _, rfl⟩
    exact Nat.le_trans (length_le_size_batch entries) hsize

section
variable (h : (StreamTree.batch entries).WellFormed)
  (hsize : (StreamTree.batch entries).size ≤ maxWord)
include h

theorem WellFormed.ne_nil : entries ≠ [] := by
  cases h with
  | batch some nested => exact some

include hsize

/-- what is nested in a batch is a tree of the same kind -/
theorem WellFormed.nested (he : e ∈ entries) {sub : StreamTree} (hsub : e.nested = some sub) :
    sub.WellFormed ∧ sub.size ≤ maxWord := by
  refine ⟨?_, Nat.le_trans (size_le_of_nested he hsub) hsize⟩
  cases h with
  | batch some nested => exact nested e he sub hsub

/-- the entries of a batch can be written -/
theorem WellFormed.fits (he : e ∈ entries) : (e.map (content m)).Fits := by
  refine ⟨?_, ?_⟩
  · have hbytes : 4 + (e.map (content m)).request.size = entryBytes (e.map size) :=
      entryBytes_eq fun sub _ => length_body_content sub
    have hle := entryBytes_le_size he
    omega
  · intro c hc
    obtain ⟨sub, hsub, rfl⟩ := Option.map_eq_some_iff.mp hc
    obtain ⟨hsubtree, hle⟩ := h.nested hsize he hsub
    exact hsubtree.stored hle

end

end StreamTree

/-! ## writing it -/

theorem BatchEntry.sequence_map {ε α β : Type} {f : α → Except ε β} {g : α → β} {e : BatchEntry α}
    (h : ∀ a, e.nested = some a → f a = .ok (g a)) : (e.map f).sequence = .ok (e.map g) := by
  obtain ⟨name, values, nested⟩ := e
  cases nested with
  | none => rfl
  | some a =>
    show (f a).map _ = _
    rw [h a rfl]
    rfl

/-- where no step fails, nothing is left out -/
theorem MessageStream.writeAll_eq {resolve : Resolver} {appends : List Append} {s : MessageStream}
    (hroom : s.count.toNat + appends.length ≤ maxWord)
    (h : ∀ a ∈ appends, ∀ s s' answer, s.count.toNat < maxWord →
      append resolve a s = .ok answer s' →
      answer.failure? = none ∧ s'.count.toNat = s.count.toNat + 1) :
    writeAll resolve appends s = appendAll resolve appends s := by
  induction appends generalizing s with
  | nil => rfl
  | cons a appends ih =>
    rw [List.length_cons] at hroom
    rw [writeAll, appendAll]
    cases happend : append resolve a s with
    | error f s' => rw [StreamM.bind_error happend, StreamM.bind_error happend]
    | ok answer s' =>
      obtain ⟨hclean, hcount⟩ := h a List.mem_cons_self s s' answer (by omega) happend
      rw [StreamM.bind_ok happend, StreamM.bind_ok happend, hclean]
      exact ih (by omega) fun a' ha' => h a' (List.mem_cons_of_mem _ ha')

section
variable {m : DynamicMessage} {resolve : Resolver} {fresh : MessageStream}

/-- **The entries of a batch are all written**, into a stream that is new and has the storage. -/
theorem MessageStream.writeAll_ok (hnew : fresh.IsNew (.message (.dynamic m)))
    {entries : List (BatchEntry Content)} (hsome : entries ≠ []) (hfits : ∀ e ∈ entries, e.Fits)
    (hcount : entries.length ≤ maxWord)
    (hstorage : ∃ whole,
      fresh.storage.allocate (entries.map fun e => 4 + e.request.size).sum = .ok whole) :
    ∃ full, writeAll resolve (entries.map (·.append m)) fresh = .ok () full ∧
      full.freeze = ⟨⟨some (Message.dynamic m).schema, UInt32.ofNat entries.length,
        (entries.map BatchEntry.payload).flatMap Layout.dynamic.encode⟩, fresh.version⟩ := by
  let t : Target := .message (.dynamic m)
  let calls : List (Append × t.layout.Parcel) := entries.map fun e => (e.append m, e.payload)
  have hzero : fresh.count.toNat = 0 := by rw [hnew.count]; rfl
  have happends : calls.map (·.1) = entries.map (·.append m) := List.map_map
  have hcalls : ∀ c ∈ calls, c.1.Writes resolve t c.2 ∧ t.layout.Fits c.2 := by
    intro c hc
    obtain ⟨e, he, rfl⟩ := List.mem_map.mp hc
    refine ⟨e.writes_append (hfits e he) m, ?_⟩
    show e.payload.length ≤ maxWord
    rw [e.length_payload]
    exact (hfits e he).size
  have hsum : (calls.map fun c => t.layout.parcelSize c.2).sum
      = (entries.map fun e => 4 + e.request.size).sum := by
    rw [List.map_map]
    apply congrArg List.sum
    apply List.map_congr_left
    intro e _
    exact congrArg (4 + ·) e.length_payload
  have hlen : calls.length = entries.length := List.length_map _
  obtain ⟨full, hfull, hbytes, hfcount, hversion, hschema⟩ := appendAll_of_writes
    (show t.check = .ok () from rfl) hcalls hnew.schema (by omega) (hsum ▸ hstorage)
  refine ⟨full, ?_, ?_⟩
  · rw [← hfull, happends]
    refine writeAll_eq (by rw [List.length_map]; omega) ?_
    intro a ha s s' answer hs happend
    obtain ⟨e, he, rfl⟩ := List.mem_map.mp ha
    exact e.failure?_of_append (hfits e he) hs happend
  · have hne : calls ≠ [] := fun h => hsome (List.map_eq_nil_iff.mp h)
    have hschema' : full.schema = some t.schema := hschema.resolve_left fun h => hne h.1
    have hfc : full.count = UInt32.ofNat entries.length := by
      apply UInt32.toNat_inj.mp
      rw [hfcount, hzero, Nat.zero_add, hlen, Layout.toNat_ofNat_of_fits hcount]
    have hbody : full.storage.bytes
        = (entries.map BatchEntry.payload).flatMap Layout.dynamic.encode := by
      rw [hbytes, hnew.bytes, List.nil_append, List.flatMap_map, List.flatMap_map]
      rfl
    rw [freeze, MessageStream.content, hschema', hfc, hbody, hversion]
    rfl

end

namespace StreamTree

variable {m : DynamicMessage} {resolve : Resolver} {fresh : MessageStream}

/-- a batch whose nested streams are frozen -/
theorem writeBatch_ok (hnew : fresh.IsNew (.message (.dynamic m)))
    {entries : List (BatchEntry StreamTree)} (h : (batch entries).WellFormed)
    (hsize : (batch entries).size ≤ maxWord)
    (hstorage : ∃ whole, fresh.storage.allocate (batch entries).size = .ok whole)
    {k : StreamTree → FrozenStream} (hk : ∀ sub, (k sub).content = sub.content m) :
    MessageStream.writeBatch resolve m fresh (entries.map (·.map k))
      = .ok ⟨(batch entries).content m, fresh.version⟩ := by
  have hsame : ∀ e : BatchEntry StreamTree,
      (e.map k).map FrozenStream.content = e.map (content m) := by
    intro e
    rw [BatchEntry.map_map]
    exact congrArg (e.map ·) (funext hk)
  have happends : (entries.map (·.map k)).map (fun e => (e.map FrozenStream.content).append m)
      = (entries.map (·.map (content m))).map (·.append m) := by
    rw [List.map_map, List.map_map]
    apply List.map_congr_left
    intro e _
    exact congrArg (BatchEntry.append · m) (hsame e)
  have hsum : ((entries.map (·.map (content m))).map fun e => 4 + e.request.size).sum
      = (batch entries).size := by
    rw [size_batch, List.map_map]
    apply congrArg List.sum
    apply List.map_congr_left
    intro e _
    exact entryBytes_eq fun sub _ => length_body_content sub
  have hsome : entries.map (·.map (content m)) ≠ [] :=
    fun hnil => h.ne_nil (List.map_eq_nil_iff.mp hnil)
  have hcount : (entries.map (·.map (content m))).length ≤ maxWord := by
    rw [List.length_map]
    exact Nat.le_trans (length_le_size_batch entries) hsize
  have hfits : ∀ c ∈ entries.map (·.map (content m)), c.Fits := by
    intro c hc
    obtain ⟨e, he, rfl⟩ := List.mem_map.mp hc
    exact h.fits hsize he
  obtain ⟨full, hfull, hfreeze⟩ :=
    MessageStream.writeAll_ok hnew hsome hfits hcount (hsum ▸ hstorage)
  rw [MessageStream.writeBatch, happends, hfull, content_batch]
  show Except.ok full.freeze = _
  rw [hfreeze, List.length_map, List.map_map]
  rfl

/-- **Writing a tree succeeds, without a step that fails, and leaves its content.** -/
theorem write_eq (hnew : fresh.IsNew (.message (.dynamic m))) {tree : StreamTree}
    (h : tree.WellFormed) (hsize : tree.size ≤ maxWord)
    (hstorage : ∃ whole, fresh.storage.allocate tree.size = .ok whole) :
    tree.write resolve m fresh = .ok ⟨tree.content m, fresh.version⟩ := by
  induction tree using StreamTree.byEntries with
  | leaf t items => rfl
  | batch entries ih =>
    let k : StreamTree → FrozenStream := fun sub => ⟨sub.content m, fresh.version⟩
    have hnested : ∀ e ∈ entries, ∀ sub, e.nested = some sub →
        sub.write resolve m fresh = .ok (k sub) := by
      intro e he sub hsub
      obtain ⟨hsubtree, hle⟩ := h.nested hsize he hsub
      obtain ⟨whole, hwhole⟩ := hstorage
      exact ih e he sub hsub hsubtree hle
        (Storage.allocate_of_whole hwhole (size_le_of_nested he hsub))
    have hfrozen : (entries.map (·.map (write resolve m fresh))).mapM BatchEntry.sequence
        = .ok (entries.map (·.map k)) := by
      rw [List.mapM_map]
      exact mapM_ok fun e he => BatchEntry.sequence_map (hnested e he)
    rw [write, fold_batch]
    show ((entries.map (·.map (write resolve m fresh))).mapM BatchEntry.sequence >>= _) = _
    rw [hfrozen, ok_bind]
    exact writeBatch_ok hnew h hsize hstorage fun _ => rfl

end StreamTree

/-! ## reading it -/

/-- elements that are each read back from what they became, with their index at hand -/
theorem mapM_zipIdx {ε α β : Type} {f : β × Nat → Except ε α} {g : α → β} {l : List α} {k : Nat}
    (h : ∀ i a, l[i]? = some a → f (g a, k + i) = .ok a) :
    ((l.map g).zipIdx k).mapM f = .ok l := by
  induction l generalizing k with
  | nil => rfl
  | cons a l ih =>
    have hfirst : f (g a, k) = .ok a := h 0 a rfl
    have hrest : ((l.map g).zipIdx (k + 1)).mapM f = .ok l := by
      apply ih
      intro i b hb
      rw [Nat.add_right_comm, Nat.add_assoc]
      exact h (i + 1) b hb
    rw [List.map_cons, List.zipIdx_cons, List.mapM_cons, hfirst, ok_bind, hrest, ok_bind]
    rfl

/-- **One entry is read back**, if what is nested in it is. -/
theorem BatchEntry.reading_payload {α : Type} {e : BatchEntry α} {k : α → Content}
    (hfits : (e.map k).Fits) {f : Content → Except Failure α}
    (hf : ∀ a, e.nested = some a → f (k a) = .ok a) : reading (e.map k).payload f = .ok e := by
  have hall : (e.map (f ∘ k)).sequence = .ok (e.map id) := sequence_map hf
  rw [reading, ofPayload_payload hfits]
  show ((e.map k).map f).sequence = _
  rw [map_map, hall, map_id]

theorem Target.check_of_isEntry {t : Target} {e : Bytes} (h : t.layout.IsEntry e) :
    t.check = .ok () := by
  cases t with
  | mixed => rfl
  | message m =>
    cases m with
    | static m =>
      cases h with
      | static pos len => exact if_neg (Nat.ne_of_gt pos)
    | dynamic m => rfl
    | chunked m => rfl

/-- a stream of some entries reads as the items of these -/
theorem Tier.items_of_entries {l : Layout} {items : List l.Item}
    (h : ∀ item ∈ items, l.IsEntry (l.entryOf item)) (hcount : items.length ≤ maxWord)
    (tier : Tier) (schema : Option Schema) :
    tier.items l ⟨schema, UInt32.ofNat items.length, items.flatMap l.entryOf⟩ = .ok items := by
  let content : Content := ⟨schema, UInt32.ofNat items.length, items.flatMap l.entryOf⟩
  have hs : l.Spells (items.map l.entryOf) content.body := by
    refine ⟨?_, List.flatMap_def.symm⟩
    intro e he
    obtain ⟨item, hitem, rfl⟩ := List.mem_map.mp he
    exact h item hitem
  have hn : (items.map l.entryOf).length = content.count.toNat := by
    rw [List.length_map, Layout.toNat_ofNat_of_fits hcount]
  have hitems : tier.items l content = .ok ((items.map l.entryOf).map l.decode) :=
    tier.items_of_spells hs hn
  rw [List.map_map] at hitems
  exact hitems.trans (congrArg Except.ok (List.map_id'' l.decode_entryOf items))

namespace StreamTree

variable {m : DynamicMessage} {tier : Tier}

theorem views_batch (entries : List (BatchEntry StreamTree)) :
    (batch entries).views = .batch (Views.within (entries.map (·.map views))) := by
  rw [views, fold_batch]

theorem within_views {entries : List (BatchEntry StreamTree)} {i : Nat}
    {e : BatchEntry StreamTree} (he : entries[i]? = some e) {sub : StreamTree}
    (hsub : e.nested = some sub) : Views.within (entries.map (·.map views)) i = sub.views := by
  rw [Views.within, List.getElem?_map, he]
  show (e.nested.map views).getD _ = _
  rw [hsub]
  rfl

theorem items_leaf {t : Target} {items : List t.layout.Item} (h : (leaf t items).WellFormed)
    (hsize : (leaf t items).size ≤ maxWord) :
    tier.items t.layout ((leaf t items).content m) = .ok items := by
  cases h with
  | leaf some entries =>
    exact tier.items_of_entries entries (Nat.le_trans (length_le_size_leaf entries) hsize) _

theorem items_batch {entries : List (BatchEntry StreamTree)} (h : (batch entries).WellFormed)
    (hsize : (batch entries).size ≤ maxWord) :
    tier.items .dynamic ((batch entries).content m)
      = .ok (entries.map fun e => (e.map (content m)).payload) := by
  let payloads : List Layout.dynamic.Item := entries.map fun e => (e.map (content m)).payload
  have hlen : payloads.length = entries.length := List.length_map _
  have hcount := Nat.le_trans (length_le_size_batch entries) hsize
  have hentries : ∀ p ∈ payloads, Layout.dynamic.IsEntry (Layout.dynamic.entryOf p) := by
    intro p hp
    obtain ⟨e, he, rfl⟩ := List.mem_map.mp hp
    refine .dynamic ?_
    rw [BatchEntry.length_payload]
    exact (h.fits hsize he).size
  rw [content_batch, ← hlen]
  exact tier.items_of_entries hentries (hlen ▸ hcount) _

theorem bind_leaf {t : Target} {items : List t.layout.Item} (h : (leaf t items).WellFormed)
    {source : Source} (hs : source.Reads ((leaf t items).content m)) :
    t.bind source = .ok source := by
  cases h with
  | leaf some entries =>
    obtain ⟨item, hitem⟩ := List.exists_mem_of_ne_nil items some
    exact Target.bind_reads hs (Target.check_of_isEntry (entries item hitem)) (.inr rfl)

theorem bind_batch {entries : List (BatchEntry StreamTree)} {source : Source}
    (hs : source.Reads ((batch entries).content m)) :
    (Target.message (.dynamic m)).bind source = .ok source := by
  refine Target.bind_reads hs rfl (.inr ?_)
  rw [content_batch]
  rfl

/-- **Reading what was written gives the tree back.** -/
theorem read_content {tree : StreamTree} (h : tree.WellFormed) (hsize : tree.size ≤ maxWord)
    {source : Source} (hs : source.Reads (tree.content m)) :
    tree.views.read m tier source = .ok tree := by
  induction tree using StreamTree.byEntries generalizing source with
  | leaf t items =>
    have hitems : tier.items t.layout source.toContent = .ok items := by
      rw [hs.toContent_eq, items_leaf h hsize]
    show (t.bind source >>= fun bound => _) = _
    rw [bind_leaf h hs, ok_bind, hitems]
    rfl
  | batch entries ih =>
    let payloads : List Layout.dynamic.Item := entries.map fun e => (e.map (content m)).payload
    have hitems : tier.items .dynamic source.toContent = .ok payloads := by
      rw [hs.toContent_eq, items_batch h hsize]
    -- what is nested in an entry is read by induction, as a content of its own
    have hentry : ∀ (i : Nat) (e : BatchEntry StreamTree), entries[i]? = some e →
        (BatchEntry.reading (e.map (content m)).payload fun c =>
          (Views.within (entries.map (·.map views)) (0 + i)).read m tier (.content c)) = .ok e := by
      intro i e hi
      have he := List.mem_of_getElem? hi
      refine BatchEntry.reading_payload (h.fits hsize he) ?_
      intro sub hsub
      obtain ⟨hsubtree, hle⟩ := h.nested hsize he hsub
      rw [Nat.zero_add, within_views hi hsub]
      exact ih e he sub hsub hsubtree hle (.content _)
    have hread : (payloads.zipIdx.mapM fun p => BatchEntry.reading p.1 fun c =>
        (Views.within (entries.map (·.map views)) p.2).read m tier (.content c)) = .ok entries :=
      mapM_zipIdx hentry
    rw [views_batch]
    show ((Target.message (.dynamic m)).bind source >>= fun bound => _) = _
    rw [bind_batch hs, ok_bind, hitems]
    exact congrArg (Except.map batch) hread

/-- every stream of some entries is a leaf -/
theorem exists_leaf {t : Target} {c : Content} (hschema : c.schema = some t.schema)
    (hcount : c.count ≠ 0) (h : t.layout.Framed c.count.toNat c.body) :
    ∃ items, (leaf t items).WellFormed ∧ leafContent t items = c := by
  obtain ⟨entries, hlen, hs⟩ := h
  have hback : ∀ e ∈ entries, t.layout.entryOf (t.layout.decode e) = e :=
    fun e he => Layout.entryOf_decode (hs.entry e he)
  refine ⟨entries.map t.layout.decode, .leaf ?_ ?_, ?_⟩
  · intro hnil
    rw [List.map_eq_nil_iff.mp hnil] at hlen
    exact hcount (UInt32.toNat_inj.mp hlen.symm)
  · intro item hitem
    obtain ⟨e, he, rfl⟩ := List.mem_map.mp hitem
    rw [hback e he]
    exact hs.entry e he
  · have hbody : (entries.map t.layout.decode).flatMap t.layout.entryOf = c.body := by
      rw [List.flatMap_map, List.flatMap_def, List.map_congr_left hback, List.map_id', hs.flatten]
    rw [leafContent, List.length_map, hlen, UInt32.ofNat_toNat, hbody, ← hschema]

end StreamTree

/-- **Streams nested to any depth come back as they were.**  A tree of streams is written from the
leaves up: into one entry each of a new stream go a name, every value in its place and what is
nested there, frozen before, with the headers put in before and after.  No step fails, and the
stream at the root has the bytes of its entries, each with its fixed part, name, values and nested
bytes in this order.  As it is or sent through its wire image it opens as a batch; read from there
down, by readers of any tier, it gives the whole tree back, with nothing where nothing was nested.
The leaves are all the streams that are some entries of a layout. -/
theorem nested_round_trip (resolve : Resolver) (m : DynamicMessage) (fresh : MessageStream)
    (tree : StreamTree) (hnew : fresh.IsNew (.message (.dynamic m))) (h : tree.WellFormed)
    (hsize : tree.size ≤ maxWord)
    (hstorage : ∃ whole, fresh.storage.allocate tree.size = .ok whole) :
    (∃ frozen wired, tree.write resolve m fresh = .ok frozen ∧
      frozen.content = tree.content m ∧ FrozenStream.ofWire frozen.toWire = .ok wired ∧
      ∀ sent, sent = frozen ∨ sent = wired →
        ∀ tier, tree.views.read m tier (.frozen sent) = .ok tree) ∧
    ∀ (t : Target) (c : Content), c.schema = some t.schema → c.count ≠ 0 →
      t.layout.Framed c.count.toNat c.body →
      ∃ items, (StreamTree.leaf t items).WellFormed ∧ StreamTree.leafContent t items = c := by
  have hwrite : tree.write resolve m fresh = .ok ⟨tree.content m, fresh.version⟩ :=
    StreamTree.write_eq hnew h hsize hstorage
  refine ⟨⟨_, _, hwrite, rfl, FrozenStream.ofWire_toWire _, ?_⟩, ?_⟩
  · intro sent hsent tier
    have hcontent : sent.content = tree.content m := by
      rcases hsent with rfl | rfl <;> rfl
    exact StreamTree.read_content h hsize (hcontent ▸ Source.Reads.frozen sent)
  · exact fun t c => StreamTree.exists_leaf

/-- a batch whose first entry holds another, which holds two bytes; the second entry is bare -/
def twoDeep : StreamTree :=
  .batch [⟨"a", [1, 2],
      some (.batch [⟨"", [], some (.leaf (.message (.static ⟨4, 2, []⟩)) [[7, 8]])⟩])⟩,
    ⟨"", [3], none⟩]

theorem nested_two_deep : twoDeep.WellFormed ∧ twoDeep.size = 135 ∧
    ∃ frozen wired, twoDeep.write (fun _ => none) ⟨9, []⟩ .empty = .ok frozen ∧
      FrozenStream.ofWire frozen.toWire = .ok wired ∧
      twoDeep.views.read ⟨9, []⟩ .checked (.frozen wired) = .ok twoDeep := by
  have hleaf : (StreamTree.leaf (.message (.static ⟨4, 2, []⟩)) [[7, 8]]).WellFormed := by
    refine .leaf (List.cons_ne_nil _ _) ?_
    intro item hitem
    rw [List.mem_singleton.mp hitem]
    exact .static (by decide) rfl
  have htree : twoDeep.WellFormed := by
    refine .batch (List.cons_ne_nil _ _) ?_
    intro e he sub hsub
    rcases List.mem_cons.mp he with rfl | he
    · cases hsub
      refine .batch (List.cons_ne_nil _ _) ?_
      intro e he sub hsub
      rw [List.mem_singleton.mp he] at hsub
      cases hsub
      exact hleaf
    · rw [List.mem_singleton.mp he] at hsub
      cases hsub
  have hsize : twoDeep.size = 135 := by decide
  have hstorage := Storage.allocate_of_le (s := MessageStream.empty.storage) (n := twoDeep.size)
    (by decide) (by rw [hsize]; decide)
  obtain ⟨⟨frozen, wired, hwrite, -, hwire, hread⟩, -⟩ :=
    nested_round_trip (fun _ => none) ⟨9, []⟩ .empty twoDeep ⟨rfl, rfl, .inl rfl⟩ htree
      (by rw [hsize]; decide) hstorage
  exact ⟨htree, hsize, frozen, wired, hwrite, hwire, hread wired (.inr rfl) .checked⟩

end TaggedStream
