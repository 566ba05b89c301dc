import TaggedStream.Proofs.Acceptance
import TaggedStream.Proofs.Wire

/-!
# Images that are cut short or run on

The entries of a stream do not say where it ends; its count does.  So a wire image that loses bytes
at its end, no matter where the cut goes through, or that gets more bytes there, is found out by the
checked reader.

* `Checked.FailsAfter`          a run that yields some items and then fails
* `Layout.Spells.of_cut`        the entries of a cut body are the first entries of the whole
* `Layout.Stops.of_cut`         where they end, bytes or entries are missing
* `Content.ofWire_cut`          a cut goes through the header, or through the body
* `cut_or_extended_image_found_out`   what the checked reader makes of either
-/

namespace TaggedStream

/-- fewer bytes or entries than promised, or more -/
def StreamError.IsLengthError : StreamError → Prop
  | truncated _ _ _ => True
  | countMismatch _ _ => True
  | _ => False

/-! ## runs that fail -/

namespace Checked

variable {l : Layout} {c : Checked l}

/-- the calls yield these items, then the error, then nothing any more -/
structure FailsAfter (c : Checked l) (items : List l.Item) (e : StreamError) : Prop where
  item : ∀ n, n < items.length → c.answer n = .ok items[n]?
  error : c.answer items.length = .error e
  silent : ∀ n, items.length < n → c.answer n = .ok none

theorem FailsAfter.of_transcript {entries : List Bytes} {e : StreamError}
    (h : ∀ n, c.answer n = l.transcript entries (.error e) n) :
    c.FailsAfter (entries.map l.decode) e := by
  have hlen : (entries.map l.decode).length = entries.length := List.length_map _
  refine ⟨?_, ?_, ?_⟩
  · intro n hn
    rw [hlen] at hn
    rw [h, Layout.transcript_of_lt hn, List.getElem?_map, List.getElem?_eq_getElem hn]
    rfl
  · rw [h, hlen, Layout.transcript_length]
    rfl
  · intro n hn
    rw [h, Layout.transcript_of_gt (hlen ▸ hn)]

end Checked

/-! ## bodies -/

namespace Layout

variable {l : Layout} {body rest lost : Bytes} {entries found : List Bytes}

/-- **What can be read of a cut body are the first entries of the whole.** -/
theorem Spells.of_cut (hs : l.Spells entries body) (hfound : ∀ e ∈ found, l.IsEntry e)
    (hcut : found.flatten ++ rest = body) :
    ∃ missing, entries = found ++ missing ∧ l.Spells missing rest := by
  induction found generalizing entries body with
  | nil => exact ⟨entries, rfl, hs.entry, by rw [hs.flatten, ← hcut]; rfl⟩
  | cons e found ih =>
    have he := hfound e List.mem_cons_self
    rw [List.flatten_cons, List.append_assoc] at hcut
    cases entries with
    | nil =>
      rw [← hs.flatten] at hcut
      exact absurd (List.append_eq_nil_iff.mp hcut).1 he.ne_nil
    | cons e' entries =>
      have hsplit : e ++ (found.flatten ++ rest) = e' ++ entries.flatten := by
        rw [hcut, ← hs.flatten, List.flatten_cons]
      obtain ⟨rfl, htail⟩ := he.append_inj (hs.entry e' List.mem_cons_self) hsplit
      obtain ⟨missing, rfl, hmissing⟩ := ih
        ⟨fun d hd => hs.entry d (List.mem_cons_of_mem _ hd), rfl⟩
        (fun d hd => hfound d (List.mem_cons_of_mem _ hd)) htail
      exact ⟨missing, rfl, hmissing⟩

/-- the entry that a cut goes through is read up to the cut: what is left of it declares its size,
if its header is whole, and that size is not there -/
theorem Stops.of_cut {count k offset : Nat} {verdict : Except StreamError Unit} {e after : Bytes}
    (h : l.Stops count k offset rest verdict) (hk : k < count) (he : l.IsEntry e)
    (hcut : rest ++ lost = e ++ after)
    (hno : ∀ d tail, l.IsEntry d → rest ≠ d ++ tail) :
    ∃ err, verdict = .error err ∧ err.IsLengthError := by
  have hsize (hheader : l.headerSize ≤ rest.length) : l.entrySize rest = e.length := by
    rw [← entrySize_append hheader lost, hcut, he.entrySize_append]
  obtain ⟨hpos, hwhole, -, -⟩ := isEntry_iff.mp he
  cases h with
  | complete hk' => omega
  | exhausted => exact ⟨_, rfl, trivial⟩
  | surplus hk' => omega
  | shortHeader => exact ⟨_, rfl, trivial⟩
  | undersized _ _ hheader hbad =>
    rw [hsize hheader] at hbad
    omega
  | shortEntry => exact ⟨_, rfl, trivial⟩
  | rejected _ _ hheader _ hle =>
    -- the cut lies behind this entry, so it would have been read
    rw [hsize hheader] at hle
    have hsplit : rest.take e.length = e := by
      have htake := congrArg (List.take e.length) hcut
      rwa [List.take_append_of_le_length hle, List.take_left] at htake
    refine absurd ?_ (hno e (rest.drop e.length) he)
    exact ((List.take_append_drop e.length rest).symm.trans (by rw [hsplit]))

end Layout

/-! ## images -/

namespace Content

variable {image lost : Bytes} {c : Content}

/-- **A cut goes through the header or through the body**; in the second case schema and count are
still there. -/
theorem ofWire_cut (h : image ++ lost = c.toWire) :
    ofWire image = .error (.truncated 0 Header.size image.length) ∨
      ∃ kept, kept ++ lost = c.body ∧ ofWire image = .ok { c with body := kept } := by
  by_cases hlen : image.length < Header.size
  · left
    rw [ofWire, Header.decode_of_short hlen]
    rfl
  · right
    have hhead : c.header.encode <+: image := by
      refine List.prefix_of_prefix_length_le ⟨c.body, rfl⟩ ⟨lost, h⟩ ?_
      rw [Header.length_encode]
      omega
    obtain ⟨kept, rfl⟩ := hhead
    refine ⟨kept, ?_, ?_⟩
    · rw [List.append_assoc, toWire] at h
      exact List.append_cancel_left h
    · rw [ofWire, Header.decode_encode]
      rfl

theorem ofWire_extended (c : Content) (more : Bytes) :
    ofWire (c.toWire ++ more) = .ok { c with body := c.body ++ more } := by
  rw [ofWire, toWire, List.append_assoc, Header.decode_encode]
  rfl

end Content

/-- what a holder of an image shows of it -/
inductive Shown (image : Bytes) : Except StreamError Content → Prop
  | content : Shown image (Content.ofWire image)
  | frozen : Shown image ((FrozenStream.ofWire image).map FrozenStream.content)
  | mapped (path : String) :
      Shown image ((MappedStream.ofFile path (some image)).map MappedStream.content)

theorem Shown.eq {image : Bytes} {shown : Except StreamError Content} (h : Shown image shown) :
    shown = Content.ofWire image := by
  cases h with
  | content => rfl
  | frozen => exact FrozenStream.content_of_ofWire image
  | mapped path => exact MappedStream.content_of_ofFile path image

namespace Checked

variable {l : Layout} {body kept lost more : Bytes} {count : UInt32} {entries : List Bytes}

/-- a body that lost bytes yields fewer entries and then says so -/
theorem failsAfter_of_cut (hs : l.Spells entries body) (hlen : entries.length = count.toNat)
    (hcut : kept ++ lost = body) (hlost : lost ≠ []) :
    ∃ k err, k < entries.length ∧ err.IsLengthError ∧
      (start l kept count).FailsAfter ((entries.map l.decode).take k) err := by
  obtain ⟨found, rest, hp⟩ := l.exists_longestPrefix count.toNat kept
  obtain ⟨verdict, hstop, hans⟩ := answer_start hp
  have hwhole : found.flatten ++ (rest ++ lost) = body := by
    rw [← List.append_assoc, ← hp.split, hcut]
  obtain ⟨missing, rfl, hmissing⟩ := hs.of_cut hp.entry hwhole
  cases missing with
  | nil => exact absurd (List.append_eq_nil_iff.mp hmissing.flatten.symm).2 hlost
  | cons e after =>
    have hk : found.length < (found ++ e :: after).length := by
      rw [List.length_append, List.length_cons]
      omega
    have hno : ∀ d tail, l.IsEntry d → rest ≠ d ++ tail :=
      hp.longest.resolve_left (by omega)
    obtain ⟨err, rfl, herr⟩ := hstop.of_cut (hlen ▸ hk) (hmissing.entry e List.mem_cons_self)
      (hmissing.flatten.symm.trans List.flatten_cons) hno
    refine ⟨found.length, err, hk, herr, ?_⟩
    rw [← List.map_take, List.take_left]
    exact .of_transcript hans

/-- a body that got more bytes yields all entries and then says so -/
theorem failsAfter_of_extended (hs : l.Spells entries body) (hlen : entries.length = count.toNat)
    (hmore : more ≠ []) :
    (start l (body ++ more) count).FailsAfter (entries.map l.decode)
      (.countMismatch count.toNat (min (count.toNat + 1) maxWord)) := by
  have hp : l.LongestPrefix count.toNat (body ++ more) entries more :=
    ⟨hs.entry, by rw [hs.flatten], Nat.le_of_eq hlen, .inl hlen⟩
  obtain ⟨verdict, hstop, hans⟩ := answer_start hp
  rw [hstop.unique (.surplus hlen hmore)] at hans
  exact .of_transcript hans

end Checked

/-- **No image is cut or extended in silence.**  Take the image of a stream that is as many entries
of its layout as it counts.  Of a proper beginning of the image every holder either says that it has
no whole header, or shows the schema and the count of the stream; the checked reader then yields
fewer items than the stream has, the first ones of it, and fails with an error about the missing
bytes or entries.  Behind an image to which bytes were added it yields all items of the stream, and
fails because of the count. -/
theorem cut_or_extended_image_found_out (l : Layout) (c : Content)
    (hc : l.Framed c.count.toNat c.body) :
    ∃ items : List l.Item, items.length = c.count.toNat ∧
      (∀ n, (Checked.start l c.body c.count).answer n = .ok items[n]?) ∧
      (∀ image, image <+: c.toWire → image ≠ c.toWire → ∀ shown, Shown image shown →
        shown = .error (.truncated 0 Header.size image.length) ∨
          ∃ cut k e, shown = .ok cut ∧ cut.schema = c.schema ∧ cut.count = c.count ∧
            k < items.length ∧ e.IsLengthError ∧
            (Checked.start l cut.body cut.count).FailsAfter (items.take k) e) ∧
      (∀ more, more ≠ [] → ∀ shown, Shown (c.toWire ++ more) shown →
        ∃ longer, shown = .ok longer ∧ longer.schema = c.schema ∧ longer.count = c.count ∧
          (Checked.start l longer.body longer.count).FailsAfter items
            (.countMismatch c.count.toNat (min (c.count.toNat + 1) maxWord))) := by
  obtain ⟨entries, hlen, hs⟩ := hc
  refine ⟨entries.map l.decode, by rw [List.length_map, hlen], ?_, ?_, ?_⟩
  · intro n
    rw [Checked.answer_of_spells hs hlen, Layout.transcript_ok, List.getElem?_map]
  · rintro image ⟨lost, hcut⟩ hproper shown hshown
    have hlost : lost ≠ [] := by
      rintro rfl
      exact hproper (by rw [← hcut, List.append_nil])
    rw [hshown.eq]
    rcases Content.ofWire_cut hcut with herr | ⟨kept, hkept, hok⟩
    · exact .inl herr
    · obtain ⟨k, e, hk, he, hfails⟩ := Checked.failsAfter_of_cut hs hlen hkept hlost
      exact .inr ⟨_, k, e, hok, rfl, rfl, by rwa [List.length_map], he, hfails⟩
  · intro more hmore shown hshown
    rw [hshown.eq, Content.ofWire_extended]
    exact ⟨_, rfl, rfl, rfl, Checked.failsAfter_of_extended hs hlen hmore⟩

/-- two entries, the second without payload: cut between them, only the count tells -/
def pairContent : Content := ⟨some ⟨.dynamic, 2⟩, 2, [1, 0, 0, 0, 7, 0, 0, 0, 0]⟩

theorem cut_between_entries_found_out :
    Layout.dynamic.Framed 2 pairContent.body ∧
      ∃ cut k e, Content.ofWire [2, 2, 0, 0, 0, 2, 0, 0, 0, 1, 0, 0, 0, 7] = .ok cut ∧
        cut.body = [1, 0, 0, 0, 7] ∧ k < 2 ∧ e.IsLengthError ∧
        (Checked.start .dynamic cut.body cut.count).answer k = .error e := by
  have hframed : Layout.dynamic.Framed 2 pairContent.body := by
    have hone : Layout.dynamic.IsEntry [1, 0, 0, 0, 7] :=
      @Layout.IsEntry.dynamic [7] (by decide)
    have hzero : Layout.dynamic.IsEntry [0, 0, 0, 0] := @Layout.IsEntry.dynamic [] (by decide)
    exact (Layout.Framed.nil.concat hone).concat hzero
  obtain ⟨items, hlen, -, hcut, -⟩ := cut_or_extended_image_found_out .dynamic pairContent hframed
  refine ⟨hframed, ?_⟩
  rcases hcut [2, 2, 0, 0, 0, 2, 0, 0, 0, 1, 0, 0, 0, 7] ⟨[0, 0, 0, 0], rfl⟩ (by decide) _
    .content with herr | ⟨cut, k, e, hok, -, -, hk, he, hfails⟩
  · cases herr
  · have hbody : cut.body = [1, 0, 0, 0, 7] := by
      cases hok
      rfl
    have hlast : (items.take k).length = k := List.length_take_of_le (Nat.le_of_lt hk)
    have herror := hfails.error
    rw [hlast] at herror
    rw [hlen] at hk
    exact ⟨cut, k, e, hok, hbody, hk, he, herror⟩

end TaggedStream
