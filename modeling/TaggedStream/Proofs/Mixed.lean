import TaggedStream.Proofs.Atomic
import TaggedStream.Proofs.RoundTrip

/-!
# Streams of mixed entries

What becomes of a new stream that mixed entries are added to, also when some of the appends are
refused or the count cannot go up any more.

* `MessageStream.Written`      a stream that was new, and the entries that were added to it since
* `MessageStream.Holds`        a stream that is its entries, with a surplus only when it is full
* `Written.holds`              every written stream is its entries
* `Written.eq_of_answers`      and these are what the checked reader yields
-/

namespace TaggedStream

/-! ## one append -/

namespace Append

variable {resolve : Resolver} {a : Append} {p : Plan} {entry : OrderedMessage}

/-- the plan of an append that writes a mixed entry -/
theorem Writes.ordered_plan (h : Writes resolve .mixed a entry) :
    ∃ fill answer, a.plan resolve = some (.ordered entry.id entry.payload.length fill) ∧
      fill entry.payload.length (Bytes.zeros entry.payload.length) = .ok answer entry.payload := by
  cases h with
  | @ordered m ops =>
    have hfill : ∃ answer, Plan.steps resolve ops m.size (Bytes.zeros m.size)
        = .ok answer (leaves resolve m.size ops) := ⟨_, rfl⟩
    obtain ⟨answer, hfill⟩ := hfill
    refine ⟨Plan.steps resolve ops, answer, ?_, ?_⟩
    · rw [length_leaves]
      rfl
    · rw [length_leaves]
      exact hfill
  | @orderedWith r ops hsteady =>
    obtain ⟨answer, hfill⟩ := Plan.requested_eq resolve r ops hsteady.symm (Bytes.zeros r.size)
    refine ⟨Plan.requested resolve r ops, answer, ?_, ?_⟩
    · rw [length_leaves]
      rfl
    · rw [length_leaves]
      exact hfill

theorem Writes.steady (h : Writes resolve .mixed a entry) : a.Steady := by
  intro r hr
  cases h with
  | ordered => cases hr
  | orderedWith hsteady =>
    cases hr
    exact hsteady

/-- an append of a mixed entry opens the stream, adds a place for the entry and fills it -/
theorem Writes.ordered_steps (h : Writes resolve .mixed a entry) :
    ∃ k : Slot → StreamM Appended, MessageStream.append resolve a = (do
      MessageStream.openAs .mixed
      k (← MessageStream.addOrdered entry.id entry.payload.length)) := by
  cases h with
  | @ordered m ops =>
    refine ⟨fun slot => MessageStream.fillEntry resolve slot ops, ?_⟩
    rw [length_leaves]
    rfl
  | @orderedWith r ops =>
    refine ⟨fun slot => MessageStream.fillRequest resolve slot r ops, ?_⟩
    rw [length_leaves]
    rfl

end Append

namespace MessageStream

/-- a stream that was new, and the mixed entries that were added to it since; an append that fails
adds no entry -/
inductive Written (resolve : Resolver) : MessageStream → List OrderedMessage → Prop
  | new {s : MessageStream} (h : s.IsNew .mixed) : Written resolve s []
  | added {s s' : MessageStream} {entries : List OrderedMessage} {a : Append}
      {entry : OrderedMessage} {answer : Appended} (h : Written resolve s entries)
      (hw : a.Writes resolve .mixed entry) (ha : append resolve a s = .ok answer s') :
      Written resolve s' (entries ++ [entry])
  | refused {s s' : MessageStream} {entries : List OrderedMessage} {a : Append}
      {entry : OrderedMessage} {f : Failure} (h : Written resolve s entries)
      (hw : a.Writes resolve .mixed entry) (ha : append resolve a s = .error f s') :
      Written resolve s' entries

/-- the entries, as many as are counted, with something behind them only if no more can be
counted -/
structure Holds (s : MessageStream) (entries : List OrderedMessage) (surplus : Bytes) : Prop where
  fits : ∀ e ∈ entries, Layout.ordered.Fits e
  bytes : s.storage.bytes = entries.flatMap Layout.ordered.encode ++ surplus
  count : s.count.toNat = entries.length
  full : surplus = [] ∨ s.count.toNat = maxWord
  schema : s.schema = none ∨ s.schema = some .ordered

variable {resolve : Resolver} {s s' b : MessageStream} {entries : List OrderedMessage}
  {surplus : Bytes} {a : Append} {entry : OrderedMessage}

theorem Holds.of_bind (h : s.Holds entries surplus) (hb : s.bind .ordered = .ok b) :
    b.Holds entries surplus := by
  obtain ⟨hstorage, hcount, hschema⟩ := bind_keeps hb
  exact ⟨h.fits, by rw [hstorage, h.bytes], by rw [hcount, h.count], by rw [hcount]; exact h.full,
    .inr hschema⟩

theorem Holds.extended (h : s.Holds entries surplus) (hroom : s.count.toNat < maxWord)
    (hfits : Layout.ordered.Fits entry) (storage : Storage) :
    (s.extended storage (Layout.ordered.encode entry)).Holds (entries ++ [entry]) [] := by
  have hnil : surplus = [] := h.full.resolve_right (Nat.ne_of_lt hroom)
  refine ⟨?_, ?_, ?_, .inl rfl, h.schema⟩
  · intro e he
    rcases List.mem_append.mp he with he | he
    · exact h.fits e he
    · rwa [List.mem_singleton.mp he]
  · have hbytes := h.bytes
    rw [hnil, List.append_nil] at hbytes
    rw [List.flatMap_append, List.flatMap_singleton, List.append_nil, ← hbytes]
    rfl
  · rw [count_extended hroom, h.count, List.length_append, List.length_singleton]

/-! ### while entries can be counted -/

theorem Holds.added (h : s.Holds entries surplus) (hroom : s.count.toNat < maxWord)
    (hw : a.Writes resolve .mixed entry) {answer : Appended}
    (ha : append resolve a s = .ok answer s') : s'.Holds (entries ++ [entry]) [] := by
  obtain ⟨fill, answer', hplan, hfill⟩ := hw.ordered_plan
  rw [append_eq_run hplan hroom] at ha
  obtain ⟨b, storage, part, hb, hrefusal, hpart, rfl⟩ :=
    Append.Plan.of_run_ok (Append.keeps_of_plan hplan) ha
  have hfits : entry.payload.length ≤ maxWord := by
    simp only [Append.Plan.ordered] at hrefusal
    split at hrefusal
    · cases hrefusal
    · omega
  have hsame : entry.payload = part := by
    have hregion : fill (Bytes.zeros entry.payload.length).length (Bytes.zeros entry.payload.length)
        = .ok answer part := hpart
    rw [Bytes.length_zeros] at hregion
    cases hfill.symm.trans hregion
    rfl
  subst hsame
  exact (h.of_bind hb).extended ((bind_keeps hb).2.1.symm ▸ hroom) hfits storage

theorem Holds.refused (h : s.Holds entries surplus) (hroom : s.count.toNat < maxWord)
    (hw : a.Writes resolve .mixed entry) {f : Failure} (ha : append resolve a s = .error f s') :
    s'.Holds entries surplus := by
  rcases append_error hw.steady hroom ha with rfl | ⟨t, ht, hopen⟩
  · exact h
  · have hmixed : t = .mixed := by
      cases hw <;> exact (Option.some.inj ht).symm
    subst hmixed
    rcases openAs_cases .mixed s with ⟨f', hf⟩ | ⟨b, -, hb, hb'⟩
    · cases hf.symm.trans hopen
    · cases hb'.symm.trans hopen
      exact h.of_bind hb

/-! ### when no more can be counted -/

theorem addOrdered_of_full (hfull : s.count.toNat = maxWord) (id : UInt32) (size : Nat) :
    ∃ f storage more, addOrdered id size s = .error f { s with storage } ∧
      storage.bytes = s.storage.bytes ++ more := by
  unfold addOrdered
  split
  · exact ⟨_, s.storage, [], rfl, (List.append_nil _).symm⟩
  · cases ha : s.storage.allocate (8 + size) with
    | error f =>
      have hfails : allocate (8 + size) s = .error (.fault f) s := by
        simp only [allocate, ha]
      exact ⟨_, s.storage, [], StreamM.bind_error hfails, (List.append_nil _).symm⟩
    | ok grown =>
      have hfails : allocate (8 + size) s
          = .error (.fault .overflow) { s with storage := grown.2 } := by
        simp only [allocate, ha, hfull, if_true]
      exact ⟨_, grown.2, _, StreamM.bind_error hfails, (Storage.of_allocate ha).2⟩

/-- the storage may have grown, but nothing is counted -/
theorem Holds.append_of_full (h : s.Holds entries surplus) (hfull : s.count.toNat = maxWord)
    (hw : a.Writes resolve .mixed entry) :
    ∃ f s' surplus', append resolve a s = .error f s' ∧ s'.Holds entries surplus' := by
  obtain ⟨k, happend⟩ := hw.ordered_steps
  rw [happend]
  rcases openAs_cases .mixed s with ⟨f, hf⟩ | ⟨b, -, hb, hopen⟩
  · exact ⟨f, s, surplus, StreamM.bind_error hf, h⟩
  · have hbound := h.of_bind hb
    have hbfull : b.count.toNat = maxWord := by rw [(bind_keeps hb).2.1, hfull]
    obtain ⟨f, storage, more, hadd, hbytes⟩ :=
      addOrdered_of_full hbfull entry.id entry.payload.length
    refine ⟨f, { b with storage }, surplus ++ more, ?_, hbound.fits, ?_, hbound.count, .inr hbfull,
      hbound.schema⟩
    · exact (StreamM.bind_ok hopen).trans (StreamM.bind_error hadd)
    · rw [← List.append_assoc, ← hbound.bytes]
      exact hbytes

/-- **A written stream is its entries.** -/
theorem Written.holds (h : Written resolve s entries) : ∃ surplus, s.Holds entries surplus := by
  induction h with
  | new h => exact ⟨[], nofun, by rw [h.bytes]; rfl, by rw [h.count]; rfl, .inl rfl, h.schema⟩
  | @added s s' entries a entry answer _ hw ha ih =>
    obtain ⟨surplus, hholds⟩ := ih
    rcases Nat.lt_or_ge s.count.toNat maxWord with hroom | hge
    · exact ⟨[], hholds.added hroom hw ha⟩
    · have hfull := Nat.le_antisymm (Layout.toNat_le_maxWord _) hge
      obtain ⟨f, s'', surplus', herror, -⟩ := hholds.append_of_full hfull hw
      cases ha.symm.trans herror
  | @refused s s' entries a entry f _ hw ha ih =>
    obtain ⟨surplus, hholds⟩ := ih
    rcases Nat.lt_or_ge s.count.toNat maxWord with hroom | hge
    · exact ⟨surplus, hholds.refused hroom hw ha⟩
    · have hfull := Nat.le_antisymm (Layout.toNat_le_maxWord _) hge
      obtain ⟨f, s'', surplus', herror, hholds'⟩ := hholds.append_of_full hfull hw
      cases ha.symm.trans herror
      exact ⟨surplus', hholds'⟩

/-- the checked reader yields the entries of a written stream -/
theorem Holds.answer_iff (h : s.Holds entries surplus) (n : Nat) (entry : OrderedMessage) :
    (Checked.start .ordered s.storage.bytes s.count).answer n = .ok (some entry) ↔
      entries[n]? = some entry := by
  have hprefix : Layout.ordered.LongestPrefix s.count.toNat s.storage.bytes
      (entries.map Layout.ordered.encode) surplus := by
    have hlen : (entries.map Layout.ordered.encode).length = s.count.toNat := by
      rw [List.length_map, h.count]
    refine ⟨?_, ?_, Nat.le_of_eq hlen, .inl hlen⟩
    · intro e he
      obtain ⟨p, hp, rfl⟩ := List.mem_map.mp he
      exact Layout.isEntry_encode (h.fits p hp)
    · rw [h.bytes, List.flatMap_def]
  obtain ⟨verdict, -, hanswer⟩ := Checked.answer_start hprefix
  rw [hanswer]
  rcases Nat.lt_or_ge n entries.length with hn | hn
  · have hdecode : Layout.ordered.decode (Layout.ordered.encode entries[n]) = entries[n] :=
      Layout.shows_decode (l := .ordered) (h.fits _ (List.getElem_mem hn))
    rw [Layout.transcript_of_lt (by rw [List.length_map]; exact hn), List.getElem_map, hdecode,
      List.getElem?_eq_getElem hn, Except.ok.injEq]
  · rw [List.getElem?_eq_none hn]
    refine ⟨fun hitem => ?_, nofun⟩
    have hlt : n < (entries.map Layout.ordered.encode).length :=
      (Layout.transcript_item_iff (l := .ordered)).mp ⟨entry, hitem⟩
    rw [List.length_map] at hlt
    omega

/-- **What the checked reader yields of a written stream are its entries.** -/
theorem Written.eq_of_answers (h : Written resolve s entries) {items : List OrderedMessage}
    (hitems : ∀ n entry, items[n]? = some entry ↔
      (Checked.start .ordered s.storage.bytes s.count).answer n = .ok (some entry)) :
    items = entries := by
  obtain ⟨surplus, hholds⟩ := h.holds
  apply List.ext_getElem?
  intro n
  apply Option.ext
  intro entry
  rw [hitems, hholds.answer_iff]

end MessageStream
end TaggedStream
