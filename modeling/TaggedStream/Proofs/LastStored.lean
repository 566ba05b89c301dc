import TaggedStream.Proofs.Frames

/-!
# Streams stored one after another

A field for a sub-stream has its data reserved once; any number of streams of that size may be
stored in it then.  Each that is stored replaces the one before.  An empty stream is not stored:
the field keeps whatever it held, a stream if there was one.

* `Container.Reserved`      a field whose header reserves a range for the data
* `Container.reserved_of_patch`   a patch makes one
* `Content.Storable`        a stream that is empty, or as long as what is reserved
* `Container.Reserved.store`      **a store succeeds, and what was stored is read**
* `Container.Reserved.stores`     any number of stores
* `last_stored_stream_read`   **the field reads as the last stream that was not empty**
-/

namespace TaggedStream

namespace Content

/-- a stream that a field of `n` bytes can be given -/
def Storable (n : Nat) (c : Content) : Prop :=
  c.isEmpty = true ∨ ∃ schema, c.schema = some schema ∧ c.body.length = n

/-- what is read of a stream in a field of its own -/
def shown (c : Content) : Option Content := if c.isEmpty then none else some c

theorem shown_of_empty {c : Content} (h : c.isEmpty = true) : c.shown = none := if_pos h

theorem shown_of_some {c : Content} (h : c.isEmpty = false) : c.shown = some c := by
  rw [shown, h]
  rfl

theorem shown_eq_none_iff {c : Content} : c.shown = none ↔ c.isEmpty = true := by
  cases h : c.isEmpty with
  | true => exact ⟨fun _ => rfl, fun _ => shown_of_empty h⟩
  | false =>
    rw [shown_of_some h]
    exact ⟨nofun, nofun⟩

/-- the last stream that is shown is the last one, unless that one is empty and another is not -/
theorem getLast?_shown_iff (sources : List Content) :
    (sources.filterMap shown).getLast? = sources.getLast?.bind shown ↔
      (∀ s ∈ sources, s.isEmpty = true) ∨ ∀ s, sources.getLast? = some s → s.isEmpty = false := by
  rcases List.eq_nil_or_concat sources with rfl | ⟨front, last, rfl⟩
  · exact ⟨fun _ => .inl fun _ hs => (nomatch hs), fun _ => rfl⟩
  rw [List.concat_eq_append, List.filterMap_append, List.getLast?_concat, Option.bind_some]
  cases h : last.isEmpty with
  | true =>
    have hnot : ¬ ∀ s, some last = some s → s.isEmpty = false := fun hall => by
      rw [hall last rfl] at h
      cases h
    rw [List.filterMap_cons_none (shown_of_empty h), List.filterMap_nil, List.append_nil,
      shown_of_empty h, List.getLast?_eq_none_iff, List.filterMap_eq_nil_iff,
      List.forall_mem_append, List.forall_mem_singleton, or_iff_left hnot]
    simp only [shown_eq_none_iff, h, and_true]
  | false =>
    have hlast : ∀ s, some last = some s → s.isEmpty = false := by
      rintro s ⟨⟩
      exact h
    rw [List.filterMap_cons_some (shown_of_some h), List.filterMap_nil, List.getLast?_concat,
      shown_of_some h]
    exact ⟨fun _ => .inr hlast, fun _ => rfl⟩

end Content

namespace Container

/-- the header at `field` reserves a range of the entry for the data of a stream, apart from
itself -/
structure Reserved (e : Bytes) (field : Nat) (span : Span) : Prop where
  header : field + subStreamHeaderSize ≤ e.length
  described : dataSpan e (field + 12) 1 = span
  within : span.Within e.length
  apart : span.Apart ⟨field, subStreamHeaderSize⟩

section
variable {e e' : Bytes} {field : Nat} {span : Span}

theorem reserved_of_patch {data : Nat} {n : UInt32} (h : patchSubStream field data n e = .ok () e')
    (hdistance : data - (field + 12) ≤ maxWord) (hin : data + n.toNat ≤ e.length)
    (hapart : Span.Apart ⟨data, n.toNat⟩ ⟨field, subStreamHeaderSize⟩) :
    Reserved e' field ⟨data, n.toNat⟩ := by
  obtain ⟨-, harray⟩ := patchSubStream_ok_iff.mp h
  obtain ⟨hle, hheader, rfl⟩ := patchArray_ok_iff.mp harray
  have hlen : (replay (words (field + 12) [UInt32.ofNat (data - (field + 12)), n]) e).length
      = e.length := length_replay (allWithin_words hheader)
  obtain ⟨hstart, hcount⟩ := word_replay_words (a := UInt32.ofNat (data - (field + 12))) (b := n)
    hheader
  refine ⟨by rwa [hlen], ?_, by rwa [hlen], hapart⟩
  rw [dataSpan, hstart, hcount, toNat_distance, (keptPlace_eq_iff hle).mpr hdistance, Nat.mul_one]

/-- what the header describes is read -/
theorem arrayRegion_of_dataSpan (hheader : field + 8 ≤ e.length)
    (hspan : dataSpan e field 1 = span) (hin : span.Within e.length) :
    arrayRegion e field 1 = .ok (e.slice span.offset span.length) := by
  subst hspan
  rcases Nat.eq_zero_or_pos (e.word (field + 4)).toNat with hzero | hsome
  · have hempty : Describes e field 1 (.ok []) := .empty hheader hzero
    rw [hempty.region_eq, dataSpan, hzero, Nat.zero_mul, Bytes.slice, List.take_zero]
  · exact (Describes.data hheader rfl rfl hsome hin).region_eq

namespace Reserved

/-- a change of the words in front and of the data leaves the reservation as it is -/
theorem of_onlyIn (h : Reserved e field span) (honly : OnlyIn [⟨field, 12⟩, span] e e') :
    Reserved e' field span := by
  obtain ⟨hheader, hspan, hin, hapart⟩ := h
  have hdata : Span.Apart ⟨field + 12, 8⟩ span :=
    hapart.symm.mono (Span.inside_of_le (Nat.le_add_right _ _) (Nat.le_refl _)) fun _ hj => hj
  have hboth : ∀ s ∈ [⟨field, 12⟩, span], Span.Apart ⟨field + 12, 8⟩ s :=
    List.forall_mem_cons.mpr ⟨(Span.apart_of_le (Nat.le_refl _)).symm,
      List.forall_mem_singleton.mpr hdata⟩
  refine ⟨honly.length_eq.symm ▸ hheader, ?_, honly.length_eq.symm ▸ hin, hapart⟩
  rw [dataSpan_eq_of_apart honly hboth, hspan]

/-- the words of the header are apart from the data -/
theorem word_eq_of_data (hapart : span.Apart ⟨field, subStreamHeaderSize⟩)
    (honly : OnlyIn [span] e e') {k : Nat} (hk : k + 4 ≤ subStreamHeaderSize) :
    e'.word (field + k) = e.word (field + k) := by
  have hinside : Span.Inside ⟨field + k, 4⟩ ⟨field, subStreamHeaderSize⟩ :=
    Span.inside_of_le (Nat.le_add_right _ _) (by omega)
  exact word_eq_of_apart honly
    (List.forall_mem_singleton.mpr (hapart.symm.mono hinside fun _ hj => hj))

theorem subStream_eq (h : Reserved e field span) {schema : Schema} {count : UInt32}
    (hkind : e.word field = schema.kind.number) (hid : e.word (field + 4) = schema.id)
    (hcount : e.word (field + 8) = count) :
    subStream? e field
      = .ok (some ⟨some schema, count, e.slice span.offset span.length⟩) := by
  have hheader : field + 12 + 8 ≤ e.length := h.header
  rw [subStream?_of_kind (by omega) hkind.symm, headerWord_of_le (by omega), ok_bind,
    headerWord_of_le (by omega), ok_bind,
    arrayRegion_of_dataSpan hheader h.described h.within, ok_bind, hid, hcount]
  rfl

/-- **A stream that is stored is read back.** -/
theorem store (h : Reserved e field span) {source : Content} {schema : Schema}
    (hsome : source.isEmpty = false) (hschema : source.schema = some schema)
    (hlen : source.body.length = span.length) :
    ∃ e', storeSubStream field source e = .ok () e' ∧ Reserved e' field span ∧
      subStream? e' field = .ok (some source) := by
  have hfront : field + 12 ≤ e.length := Nat.le_trans (Nat.le_add_right _ 8) h.header
  let front := replay (streamWords field schema source.count) e
  have honly : OnlyIn [⟨field, 12⟩] e front :=
    onlyIn_streamWords (fun _ hw => hw) (allWithin_words hfront)
  have hfits : span.offset + source.body.length ≤ e.length := hlen ▸ h.within
  have hrange : dataRange (field + 12) 1 front = .ok (span.offset, source.body.length) := by
    have hspan := (dataSpan_eq_of_front honly 1).trans h.described
    rw [dataRange_of_le (honly.length_eq.symm ▸ h.header), hlen, ← hspan]
    rfl
  have hok := storeSubStream_ok hsome hschema hfront hrange hfits
  rw [replay_append] at hok
  let stored := Write.put ⟨span.offset, source.body⟩ front
  have hkept : Reserved stored field span := by
    obtain ⟨hboth, -⟩ := onlyIn_storeSubStream hsome hschema hok
    rw [h.described] at hboth
    exact h.of_onlyIn hboth
  refine ⟨stored, hok, hkept, ?_⟩
  have hin : (Write.span ⟨span.offset, source.body⟩).Within front.length :=
    honly.length_eq.symm ▸ hfits
  have hdata : OnlyIn [span] front stored := by
    have hput := OnlyIn.put hin
    rwa [Write.span, hlen] at hput
  have hword : ∀ w k, k + 4 ≤ subStreamHeaderSize →
      ⟨field + k, Bytes.ofWord w⟩ ∈ streamWords field schema source.count →
      stored.word (field + k) = w := fun w k hk hmem =>
    (word_eq_of_data h.apart hdata hk).trans (word_of_holds (words_hold hfront _ hmem))
  have hbody : stored.slice span.offset span.length = source.body := hlen ▸ Write.holds_put hin
  rw [hkept.subStream_eq (hword _ 0 (by decide) List.mem_cons_self)
    (hword _ 4 (by decide) (.tail _ List.mem_cons_self))
    (hword _ 8 (by decide) (.tail _ (.tail _ List.mem_cons_self))), hbody, ← hschema]

/-- **Any number of stores**: what the field held counts until a stream is stored. -/
theorem stores (resolve : Resolver) {sources : List Content} {before : Option Content}
    (h : Reserved e field span) (hbefore : subStream? e field = .ok before)
    (hsources : ∀ s ∈ sources, s.Storable span.length) :
    ∃ e', Entry.Runs resolve (sources.map (.storeSubStream field)) e e' ∧
      Reserved e' field span ∧
      subStream? e' field = .ok ((sources.filterMap Content.shown).getLast?.or before) := by
  induction sources generalizing e before with
  | nil => exact ⟨e, .nil, h, hbefore⟩
  | cons s sources ih =>
    obtain ⟨hs, hrest⟩ := List.forall_mem_cons.mp hsources
    cases hempty : s.isEmpty with
    | true =>
      obtain ⟨e', hruns, hkept, hread⟩ := ih h hbefore hrest
      have hskip : storeSubStream field s e = .ok () e := by
        rw [storeSubStream, if_pos hempty]
        rfl
      refine ⟨e', hruns.step hskip rfl, hkept, ?_⟩
      rwa [List.filterMap_cons_none (Content.shown_of_empty hempty)]
    | false =>
      obtain ⟨schema, hschema, hlen⟩ := hs.resolve_left (Bool.eq_false_iff.mp hempty)
      obtain ⟨e₁, hstore, h₁, hread₁⟩ := h.store hempty hschema hlen
      obtain ⟨e', hruns, hkept, hread⟩ := ih h₁ hread₁ hrest
      refine ⟨e', hruns.step hstore rfl, hkept, ?_⟩
      rw [hread, List.filterMap_cons_some (Content.shown_of_some hempty), List.getLast?_cons,
        Option.some_or]
      cases (sources.filterMap Content.shown).getLast? <;> rfl

end Reserved
end

end Container

open Container Content in
/-- **A field reads as the last stream stored in it that was not empty**, and as absent if there was
none, whatever streams are stored one after another in a field that was unset; no store fails.  So
it reads as the last stream, absent if that one was empty, exactly if all of them were empty or the
last one was not. -/
theorem last_stored_stream_read (resolve : Resolver) {e : Bytes} {field : Nat} {span : Span}
    {sources : List Content} (h : Reserved e field span) (hunset : e.word field = 0)
    (hsources : ∀ s ∈ sources, s.Storable span.length) :
    ∃ e', Entry.Runs resolve (sources.map (.storeSubStream field)) e e' ∧ e'.length = e.length ∧
      subStream? e' field = .ok (sources.filterMap shown).getLast? ∧
      (subStream? e' field = .ok (sources.getLast?.bind shown) ↔
        (∀ s ∈ sources, s.isEmpty = true) ∨
          ∀ s, sources.getLast? = some s → s.isEmpty = false) := by
  have hword : field + 4 ≤ e.length := Nat.le_trans (Nat.le_add_right _ 16) h.header
  have habsent : subStream? e field = .ok none := (HoldsStream.absent hword hunset).subStream_eq
  obtain ⟨e', hruns, hkept, hread⟩ := h.stores resolve habsent hsources
  rw [Option.or_none] at hread
  refine ⟨e', hruns, ?_, hread, ?_⟩
  · rw [← hruns.2]
    exact Entry.length_run resolve e _
  · rw [hread, Except.ok.injEq]
    exact getLast?_shown_iff sources

/-- a stream of two entries, stored after another and an empty one -/
theorem third_stream_read :
    let e : Bytes := List.replicate 12 0 ++ [8, 0, 0, 0, 4, 0, 0, 0, 0, 0, 0, 0]
    let first : Content := ⟨some ⟨.static, 4⟩, 1, [1, 0, 2, 0]⟩
    let last : Content := ⟨some ⟨.dynamic, 5⟩, 2, [7, 0, 9, 0]⟩
    let sources := [first, ⟨none, 0, []⟩, last]
    Container.Reserved e 0 ⟨20, 4⟩ ∧ e.word 0 = 0 ∧ (∀ s ∈ sources, s.Storable 4) ∧
      ∃ e', Entry.Runs (fun _ => none) (sources.map (.storeSubStream 0)) e e' ∧
        Container.subStream? e' 0 = .ok (some last) := by
  intro e first last sources
  have hpatch : Container.patchSubStream 0 20 4 (Bytes.zeros 24) = .ok () e := rfl
  have hreserved : Container.Reserved e 0 ⟨20, 4⟩ :=
    Container.reserved_of_patch hpatch (by decide) (by decide) (by decide)
  have hsources : ∀ s ∈ sources, s.Storable 4 := by
    intro s hs
    simp only [sources, List.mem_cons, List.not_mem_nil, or_false] at hs
    rcases hs with rfl | rfl | rfl
    · exact .inr ⟨_, rfl, rfl⟩
    · exact .inl rfl
    · exact .inr ⟨_, rfl, rfl⟩
  obtain ⟨e', hruns, -, hread, -⟩ :=
    last_stored_stream_read (fun _ => none) hreserved rfl hsources
  exact ⟨hreserved, rfl, hsources, e', hruns, hread⟩

/-- an empty stream stored after another one leaves that one to be read -/
theorem stream_read_after_empty_store :
    let e : Bytes := List.replicate 12 0 ++ [8, 0, 0, 0, 4, 0, 0, 0, 0, 0, 0, 0]
    let first : Content := ⟨some ⟨.static, 4⟩, 2, [7, 0, 9, 0]⟩
    let sources := [first, ⟨some ⟨.static, 4⟩, 0, []⟩]
    Container.patchSubStream 0 20 4 (Bytes.zeros 24) = .ok () e ∧
      ∃ e', Entry.Runs (fun _ => none) (sources.map (.storeSubStream 0)) e e' ∧
        sources.getLast?.bind Content.shown = none ∧
        Container.subStream? e' 0 = .ok (some first) ∧ Container.subStream? e' 0 ≠ .ok none := by
  intro e first sources
  let e' : Bytes := [1, 0, 0, 0, 4, 0, 0, 0, 2, 0, 0, 0, 8, 0, 0, 0, 4, 0, 0, 0, 7, 0, 9, 0]
  have hstore : Container.storeSubStream 0 first e = .ok () e' := by cbv
  have hskip : Container.storeSubStream 0 ⟨some ⟨.static, 4⟩, 0, []⟩ e' = .ok () e' := rfl
  have hread : Container.subStream? e' 0 = .ok (some first) := rfl
  refine ⟨rfl, e', .step hstore rfl (.step hskip rfl .nil), rfl, hread, fun hnone => ?_⟩
  rw [hread] at hnone
  cases hnone

end TaggedStream
