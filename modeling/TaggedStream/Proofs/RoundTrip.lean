import Mathlib.Algebra.Ring.Nat
import TaggedStream.Proofs.Growth
import TaggedStream.Proofs.Parcels
import TaggedStream.Proofs.Tiers
import TaggedStream.Proofs.Wire

/-!
# Writing and reading back

What is put into a new stream entry by entry is what every reader gets out of it once it is
frozen, directly or by way of its wire image.

* `MessageStream.appendAll`         appends one after the other
* `MessageStream.appendAll_of_writes`   appends that write parcels leave the bytes of these
* `readers_of_encode`               the readers over the bytes of parcels
* `round_trip`                      from parcels to readers
-/

namespace TaggedStream

/-! ## appends one after the other -/

namespace MessageStream

def appendAll (resolve : Resolver) : List Append → StreamM Unit
  | [] => pure ()
  | a :: as => do
    let _ ← append resolve a
    appendAll resolve as

/-- without entries, and with the schema of the target if with any -/
structure IsNew (t : Target) (s : MessageStream) : Prop where
  count : s.count = 0
  bytes : s.storage.bytes = []
  schema : s.schema = none ∨ s.schema = some t.schema

variable {resolve : Resolver} {t : Target} {s : MessageStream}

theorem version_of_bind {b : MessageStream} {schema : Schema} (h : s.bind schema = .ok b) :
    b.version = s.version := by
  unfold bind at h
  split at h
  · cases h
    rfl
  · split at h <;> cases h
    rfl

/-- **Appends that write parcels succeed and leave the bytes of the parcels**, given storage for
all of them. -/
theorem appendAll_of_writes {calls : List (Append × t.layout.Parcel)} (hcheck : t.check = .ok ())
    (hcalls : ∀ c ∈ calls, c.1.Writes resolve t c.2 ∧ t.layout.Fits c.2)
    (hs : s.schema = none ∨ s.schema = some t.schema)
    (hroom : s.count.toNat + calls.length ≤ maxWord)
    (hstorage : ∃ whole,
      s.storage.allocate (calls.map fun c => t.layout.parcelSize c.2).sum = .ok whole) :
    ∃ full, appendAll resolve (calls.map (·.1)) s = .ok () full ∧
      full.storage.bytes = s.storage.bytes ++ calls.flatMap (fun c => t.layout.encode c.2) ∧
      full.count.toNat = s.count.toNat + calls.length ∧ full.version = s.version ∧
      (calls = [] ∧ full.schema = s.schema ∨ full.schema = some t.schema) := by
  induction calls generalizing s with
  | nil =>
    refine ⟨s, rfl, ?_, rfl, rfl, .inl ⟨rfl, rfl⟩⟩
    rw [List.flatMap_nil, List.append_nil]
  | cons c calls ih =>
    obtain ⟨hwrites, hfits⟩ := hcalls c List.mem_cons_self
    rw [List.length_cons] at hroom
    obtain ⟨whole, hwhole⟩ := hstorage
    rw [List.map_cons, List.sum_cons] at hwhole
    obtain ⟨offset, first, hfirst, hrest⟩ := Storage.allocate_split hwhole
    obtain ⟨answer, b, hb, happend⟩ := Append.append_of_writes hwrites hfits hcheck hs
      (show s.count.toNat < maxWord by omega) hfirst
    obtain ⟨hbstorage, hbcount, hbschema⟩ := bind_keeps hb
    have hbytes : (b.storage.bytes ++ t.layout.encode c.2).length
        = s.storage.bytes.length + t.layout.parcelSize c.2 := by
      rw [hbstorage, List.length_append, Layout.length_encode hfits]
    have hcount := count_extended (show b.count.toNat < maxWord by rw [hbcount]; omega) first
      (t.layout.encode c.2)
    rw [hbcount] at hcount
    obtain ⟨full, hfull, hfbytes, hfcount, hfversion, hfschema⟩ := ih
      (s := b.extended first (t.layout.encode c.2))
      (fun c' hc' => hcalls c' (List.mem_cons_of_mem _ hc')) (.inr hbschema) (by omega)
      (hrest _ hbytes)
    refine ⟨full, ?_, ?_, ?_, ?_, ?_⟩
    · rw [List.map_cons, appendAll, StreamM.bind_ok happend]
      exact hfull
    · rw [hfbytes, List.flatMap_cons, ← List.append_assoc, ← hbstorage]
      rfl
    · rw [hfcount, hcount, List.length_cons]
      omega
    · have hversion : full.version = b.version := hfversion
      exact hversion.trans (version_of_bind hb)
    · refine .inr (hfschema.elim (fun h => ?_) id)
      exact h.2.trans hbschema

end MessageStream

/-! ## reading what was written -/

/-- a holder that shows a content of the target's schema, or of none, opens as it -/
theorem Target.bind_reads {t : Target} {source : Source} {c : Content} (hs : source.Reads c)
    (hcheck : t.check = .ok ()) (h : c.schema = none ∨ c.schema = some t.schema) :
    t.bind source = .ok source := by
  have hcontent : (Source.content c).bind t.schema = .ok (.content c) := by
    rcases h with h | h
    · simp only [Source.bind, Source.toContent, h]
    · simp only [Source.bind, Source.toContent, h, if_true]
  rw [Target.bind, hcheck]
  show (source.bind t.schema).mapError Failure.error = _
  rw [hs.bind_eq, hcontent]
  rfl

section
variable {l : Layout} {parcels : List l.Parcel}

theorem spells_encode (h : ∀ p ∈ parcels, l.Fits p) :
    l.Spells (parcels.map l.encode) (parcels.flatMap l.encode) := by
  refine ⟨?_, List.flatMap_def.symm⟩
  intro e he
  obtain ⟨p, hp, rfl⟩ := List.mem_map.mp he
  exact Layout.isEntry_encode (h p hp)

/-- the entries of the parcels as readers get them -/
def Layout.items (l : Layout) (parcels : List l.Parcel) : List l.Item :=
  parcels.map fun p => l.decode (l.encode p)

theorem getElem?_items (n : Nat) :
    (l.items parcels)[n]? = (parcels.map l.encode)[n]?.map l.decode := by
  rw [Layout.items, List.getElem?_map, List.getElem?_map, Option.map_map]
  rfl

/-- every item shows the parcel in its place -/
theorem shows_items (h : ∀ p ∈ parcels, l.Fits p) {n : Nat} {item : l.Item} {p : l.Parcel}
    (hitem : (l.items parcels)[n]? = some item) (hp : parcels[n]? = some p) : l.Shows item p := by
  rw [Layout.items, List.getElem?_map, hp] at hitem
  cases hitem
  exact Layout.shows_decode (h p (List.mem_of_getElem? hp))

/-- **All readers get the parcels**, and then there is nothing more to read. -/
theorem readers_of_encode {count : UInt32} (h : ∀ p ∈ parcels, l.Fits p)
    (hcount : count.toNat = parcels.length) (n : Nat) :
    (Checked.start l (parcels.flatMap l.encode) count).answer n = .ok (l.items parcels)[n]? ∧
    (Lenient.start l (parcels.flatMap l.encode) count).answer n = (l.items parcels)[n]? ∧
    l.answer (.start (parcels.flatMap l.encode)) n = (l.items parcels)[n]? ∧
    (parcels.length ≤ n → (l.after (.start (parcels.flatMap l.encode)) n).remaining = 0) := by
  have hs := spells_encode h
  have hlen : (parcels.map l.encode).length = count.toNat := by rw [List.length_map, hcount]
  have hchecked := Checked.answer_of_spells hs hlen n
  rw [Layout.transcript_ok, ← getElem?_items] at hchecked
  obtain ⟨htrust, hrest⟩ :=
    Layout.trust_all (p := .start (parcels.flatMap l.encode)) hs.entry hs.flatten.symm n
  rw [← getElem?_items] at htrust
  refine ⟨hchecked, Lenient.answer_of_checked hchecked, htrust, ?_⟩
  intro hn
  rw [Cursor.remaining, hrest (by rw [List.length_map]; exact hn)]
  rfl

end

/-- **Round trip.**  Appends that write parcels of one layout into a new stream, in whatever way
they fill their handles, leave a stream that counts as many entries and has the bytes of the
parcels, no more and no fewer.  Frozen, or sent through its wire image, it opens as what it was
written as, and all three tiers read items that show the parcels, in their order; after the last
the checked tier ends without an error, and the trusting one with nothing left. -/
theorem round_trip (resolve : Resolver) (t : Target) (s : MessageStream)
    (calls : List (Append × t.layout.Parcel)) (hcheck : t.check = .ok ()) (hnew : s.IsNew t)
    (hcalls : ∀ c ∈ calls, c.1.Writes resolve t c.2 ∧ t.layout.Fits c.2)
    (hcount : calls.length ≤ maxWord)
    (hstorage : ∃ whole,
      s.storage.allocate (calls.map fun c => t.layout.parcelSize c.2).sum = .ok whole) :
    ∃ full wired, MessageStream.appendAll resolve (calls.map (·.1)) s = .ok () full ∧
      full.count.toNat = calls.length ∧
      full.storage.length = (calls.map fun c => t.layout.parcelSize c.2).sum ∧
      FrozenStream.ofWire full.freeze.toWire = .ok wired ∧
      ∀ frozen, frozen = full.freeze ∨ frozen = wired →
        t.bind (.frozen frozen) = .ok (.frozen frozen) ∧
        ∃ items : List t.layout.Item, items.length = calls.length ∧
          (∀ (n : Nat) (item : t.layout.Item) (c : Append × t.layout.Parcel),
            items[n]? = some item → calls[n]? = some c → t.layout.Shows item c.2) ∧
          ∀ n,
            (Checked.start t.layout frozen.content.body frozen.content.count).answer n
              = .ok items[n]? ∧
            (Lenient.start t.layout frozen.content.body frozen.content.count).answer n
              = items[n]? ∧
            t.layout.answer (.start frozen.content.body) n = items[n]? ∧
            (calls.length ≤ n →
              (t.layout.after (.start frozen.content.body) n).remaining = 0) := by
  have hzero : s.count.toNat = 0 := by rw [hnew.count]; rfl
  obtain ⟨full, hfull, hbytes, hfcount, -, hfschema⟩ := MessageStream.appendAll_of_writes hcheck
    hcalls hnew.schema (show s.count.toNat + calls.length ≤ maxWord by omega) hstorage
  have hschema : full.schema = none ∨ full.schema = some t.schema :=
    hfschema.elim (fun h => h.2 ▸ hnew.schema) .inr
  have hparcels : ∀ p ∈ calls.map (·.2), t.layout.Fits p := by
    intro p hp
    obtain ⟨c, hc, rfl⟩ := List.mem_map.mp hp
    exact (hcalls c hc).2
  have hbody : full.storage.bytes = (calls.map (·.2)).flatMap t.layout.encode := by
    rw [hbytes, hnew.bytes, List.nil_append, List.flatMap_map]
  have hlength : full.count.toNat = (calls.map (·.2)).length := by
    rw [hfcount, hzero, Nat.zero_add, List.length_map]
  refine ⟨full, ⟨full.content, 0⟩, hfull, ?_, ?_, full.freeze.ofWire_toWire, ?_⟩
  · rw [hlength, List.length_map]
  · rw [Storage.length, hbody, List.flatMap_map, List.length_flatMap]
    apply congrArg List.sum
    apply List.map_congr_left
    intro c hc
    exact Layout.length_encode (hcalls c hc).2
  · intro frozen hfrozen
    have hcontent : frozen.content = full.content := by
      rcases hfrozen with rfl | rfl <;> rfl
    have hcbody : frozen.content.body = (calls.map (·.2)).flatMap t.layout.encode := by
      rw [hcontent]
      exact hbody
    have hccount : frozen.content.count.toNat = (calls.map (·.2)).length := by
      rw [hcontent]
      exact hlength
    refine ⟨?_, t.layout.items (calls.map (·.2)), ?_, ?_, ?_⟩
    · exact Target.bind_reads (.frozen frozen) hcheck (by rw [hcontent]; exact hschema)
    · rw [Layout.items, List.length_map, List.length_map]
    · intro n item c hitem hc
      refine shows_items hparcels hitem ?_
      rw [List.getElem?_map, hc]
      rfl
    · intro n
      have hread := readers_of_encode hparcels hccount n
      rw [← hcbody, List.length_map] at hread
      exact hread

/-- two chunks, of one and of three bytes, behind a base of two -/
def pairTarget : Target := .message (.chunked ⟨5, ⟨2, [1, 3]⟩⟩)

/-- two entries, the first without its second chunk -/
def pairCalls : List (Append × pairTarget.layout.Parcel) :=
  [⟨1, [7, 7], [some [9], none]⟩, ⟨3, [8, 8], [some [1], some [2, 3, 4]]⟩].map fun p =>
    (Append.direct pairTarget p, p)

theorem round_trip_pairs :
    ∃ full, MessageStream.appendAll (fun _ => none) (pairCalls.map (·.1)) .empty = .ok () full ∧
      full.storage.length = 25 ∧
      ∃ item, (Checked.start pairTarget.layout full.storage.bytes full.count).answer 1
          = .ok (some item) ∧
        ChunkShape.chunk? ⟨2, [1, 3]⟩ item 2 = .ok (some [2, 3, 4]) := by
  have hfits : ∀ c ∈ pairCalls, pairTarget.layout.Fits c.2 := by
    intro c hc
    have hone : ∀ b b' : Bytes, some b' = some b → b.length = b'.length :=
      fun b b' h => congrArg List.length (Option.some.inj h).symm
    rcases List.mem_cons.mp hc with rfl | hc
    · exact ⟨⟨rfl, rfl, .cons rfl (hone · [9]) (.cons rfl nofun .nil)⟩, by decide⟩
    · rw [List.mem_singleton.mp hc]
      exact ⟨⟨rfl, rfl, .cons rfl (hone · [1]) (.cons rfl (hone · [2, 3, 4]) .nil)⟩, by decide⟩
  have hcalls : ∀ c ∈ pairCalls, c.1.Writes (fun _ => none) pairTarget c.2 ∧
      pairTarget.layout.Fits c.2 := by
    intro c hc
    refine ⟨?_, hfits c hc⟩
    obtain ⟨p, -, rfl⟩ := List.mem_map.mp hc
    exact Append.writes_direct _ (hfits _ hc)
  have hstorage := Storage.allocate_of_le (s := MessageStream.empty.storage) (n := 25)
    (by decide) (by decide)
  obtain ⟨full, wired, hfull, -, hsize, -, hread⟩ := round_trip (fun _ => none) pairTarget .empty
    pairCalls rfl ⟨rfl, rfl, .inl rfl⟩ hcalls (by decide) hstorage
  obtain ⟨-, items, hlen, hshows, hall⟩ := hread full.freeze (.inl rfl)
  have hlt : 1 < items.length := by rw [hlen]; decide
  have hitem : items[1]? = some items[1] := List.getElem?_eq_getElem hlt
  obtain ⟨-, -, -, -, hchunks⟩ := hshows 1 items[1] _ hitem rfl
  obtain ⟨chunk, hchunk, hfound⟩ := hchunks 1 2 (by decide) (by decide)
  refine ⟨full, hfull, hsize, items[1], ?_, ?_⟩
  · rw [← hitem]
    exact (hall 1).1
  · cases hchunk
    exact hfound

end TaggedStream
