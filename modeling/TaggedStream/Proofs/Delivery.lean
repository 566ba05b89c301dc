import TaggedStream.Proofs.Parcels
import TaggedStream.Proofs.Tiling

/-!
# What the checked reader delivers

The checked reader against what its entries are made of: of every well-formed body it yields the
parcels that were put into its entries, and of every other one those of the longest well-formed
beginning.

* `Layout.exists_parcel`        every entry is made of a parcel
* `Checked.Delivers`            a run that yields given entries and then comes to a verdict
* `Checked.Delivers.of_transcript`    a transcript over entries is such a run
* `Checked.accepts_exactly_grammar`   a run without an error is a body of exactly the declared
                                number of entries
-/

namespace TaggedStream

/-- **Every entry is made of a parcel.** -/
theorem Layout.exists_parcel {l : Layout} {e : Bytes} (h : l.IsEntry e) :
    ∃ p, l.Fits p ∧ l.encode p = e := by
  cases h with
  | static pos len => exact ⟨e, ⟨pos, len⟩, rfl⟩
  | @dynamic payload fits => exact ⟨payload, fits, rfl⟩
  | @ordered id payload fits => exact ⟨OrderedMessage.mk id payload, fits, rfl⟩
  | chunked declared runtime len =>
    obtain ⟨p, hfits, hencode, hsize⟩ := ChunkContent.exists_encode (.chunked declared runtime len)
    exact ⟨p, ⟨hfits, hsize⟩, hencode⟩

namespace Checked

variable {l : Layout} {c : Checked l}

/-- for every entry the calls yield an item that shows what the entry is made of, then they come to
the verdict, then there is nothing any more -/
structure Delivers (c : Checked l) (entries : List Bytes) (verdict : Except StreamError Unit) :
    Prop where
  item : ∀ (n : Nat) e, entries[n]? = some e → ∃ p item, l.Fits p ∧ l.encode p = e ∧
    c.answer n = .ok (some item) ∧ l.Shows item p
  verdict : c.answer entries.length = verdict.map fun _ => none
  silent : ∀ n, entries.length < n → c.answer n = .ok none

theorem Delivers.of_transcript {entries : List Bytes} {verdict : Except StreamError Unit}
    (hentry : ∀ e ∈ entries, l.IsEntry e) (h : ∀ n, c.answer n = l.transcript entries verdict n) :
    c.Delivers entries verdict := by
  refine ⟨?_, ?_, ?_⟩
  · intro n e he
    obtain ⟨hn, rfl⟩ := List.getElem?_eq_some_iff.mp he
    obtain ⟨p, hfits, hencode⟩ := Layout.exists_parcel (hentry _ (List.getElem_mem hn))
    refine ⟨p, l.decode entries[n], hfits, hencode, ?_, ?_⟩
    · rw [h, Layout.transcript_of_lt hn]
    · rw [Layout.shows_iff hfits, hencode]
  · rw [h, Layout.transcript_length]
  · intro n hn
    rw [h, Layout.transcript_of_gt hn]

/-- there is no other item to be delivered for an entry -/
theorem Delivers.answer_eq {c : Checked l} {entries : List Bytes}
    {verdict : Except StreamError Unit} (h : c.Delivers entries verdict) {n : Nat} {e : Bytes}
    (he : entries[n]? = some e) : c.answer n = .ok (some (l.decode e)) := by
  obtain ⟨p, item, hfits, rfl, hanswer, hshows⟩ := h.item n e he
  rw [hanswer, (Layout.shows_iff hfits).mp hshows]

/-- **The checked reader accepts exactly the grammar.**  Calls reach the end without an error if
and only if the body is entries of the layout, exactly as many as declared; these are the only
ones that the body can be cut into, and what they are made of is what the calls yield.  From every
other body the calls yield its longest well-formed beginning of at most the declared number of
entries, then one error, fixed by the count, the bytes that follow and their place, then nothing any
more. -/
theorem accepts_exactly_grammar (l : Layout) (body : Bytes) (count : UInt32) :
    ((∃ n, (start l body count).answer n = .ok none ∧
        ∀ k ≤ n, ∀ e, (start l body count).answer k ≠ .error e) ↔
      l.Framed count.toNat body) ∧
    (∀ entries, entries.length = count.toNat → l.Spells entries body →
      (∀ other, l.Spells other body → other = entries) ∧
      (start l body count).Delivers entries (.ok ())) ∧
    (¬ l.Framed count.toNat body → ∃ entries rest e,
      (∀ entries' rest', l.LongestPrefix count.toNat body entries' rest' ↔
        entries' = entries ∧ rest' = rest) ∧
      (∀ verdict, l.Stops count.toNat entries.length entries.flatten.length rest verdict ↔
        verdict = .error e) ∧
      (start l body count).Delivers entries (.error e)) := by
  obtain ⟨entries, rest, hp⟩ := l.exists_longestPrefix count.toNat body
  obtain ⟨verdict, hstop, hans⟩ := answer_start hp
  have hframed : verdict = .ok () ↔ l.Framed count.toNat body := by
    constructor
    · rintro rfl
      obtain ⟨hlen, rfl⟩ := Layout.Stops.complete_iff.mp hstop
      exact ⟨entries, hlen, hp.entry, by rw [hp.split, List.append_nil]⟩
    · rintro ⟨entries', hlen, hs⟩
      obtain ⟨rfl, rfl⟩ := hp.unique (hs.longestPrefix (Nat.le_of_eq hlen))
      exact hstop.unique (.complete hlen)
  refine ⟨⟨?_, ?_⟩, ?_, ?_⟩
  · rintro ⟨n, hend, hno⟩
    apply hframed.mp
    cases verdict with
    | ok u => rfl
    | error e =>
      -- the error comes right after the entries, and the end not before it
      have herr : (start l body count).answer entries.length = .error e := by
        rw [hans, Layout.transcript_length]; rfl
      have hlt : n < entries.length := Nat.lt_of_not_le fun hge => hno _ hge e herr
      rw [hans, Layout.transcript_of_lt hlt] at hend
      cases hend
  · intro hfr
    have hv := hframed.mpr hfr
    refine ⟨entries.length, ?_, ?_⟩
    · rw [hans, hv, Layout.transcript_length]; rfl
    · intro k _ e he
      rw [hans, hv, Layout.transcript_ok] at he
      cases he
  · intro entries' hlen hs
    exact ⟨fun other ho => ho.unique hs, .of_transcript hs.entry (answer_of_spells hs hlen)⟩
  · intro hno
    cases verdict with
    | ok u => exact absurd (hframed.mp rfl) hno
    | error e =>
      refine ⟨entries, rest, e, fun entries' rest' => ⟨fun h => h.unique hp, ?_⟩,
        fun v => ⟨fun h => h.unique hstop, ?_⟩, .of_transcript hp.entry hans⟩
      · rintro ⟨rfl, rfl⟩
        exact hp
      · rintro rfl
        exact hstop

/-- two entries, the second without payload, and the same with the last byte cut off -/
theorem mixed_entries_delivered :
    let first : Bytes := [7, 0, 0, 0, 2, 0, 0, 0, 1, 2]
    let second : Bytes := [9, 0, 0, 0, 0, 0, 0, 0]
    let whole := start .ordered (first ++ second) 2
    let cut := start .ordered (first ++ second.take 7) 2
    (Layout.ordered.Spells [first, second] (first ++ second) ∧
      whole.answer 0 = .ok (some ⟨7, [1, 2]⟩) ∧ whole.answer 1 = .ok (some ⟨9, []⟩) ∧
      whole.answer 2 = .ok none) ∧
      ¬ Layout.ordered.Framed 2 (first ++ second.take 7) ∧
      cut.answer 0 = .ok (some ⟨7, [1, 2]⟩) ∧ cut.answer 1 = .error (.truncated 10 8 7) ∧
      cut.answer 2 = .ok none := by
  intro first second whole cut
  have hfirst : Layout.ordered.IsEntry first := @Layout.IsEntry.ordered 7 [1, 2] (by decide)
  have hsecond : Layout.ordered.IsEntry second := @Layout.IsEntry.ordered 9 [] (by decide)
  have hspells : Layout.ordered.Spells [first, second] (first ++ second) :=
    (Layout.Spells.nil.concat hfirst).concat hsecond
  obtain ⟨-, haccepts, -⟩ := accepts_exactly_grammar .ordered (first ++ second) 2
  obtain ⟨-, -, hrejects⟩ := accepts_exactly_grammar .ordered (first ++ second.take 7) 2
  -- seven bytes are no header
  have hshort : ∀ e after, Layout.ordered.IsEntry e → second.take 7 ≠ e ++ after := by
    intro e after he h
    have hheader : 8 ≤ e.length := (Layout.isEntry_iff.mp he).2.1
    have hlen := congrArg List.length h
    rw [List.length_append, show (second.take 7).length = 7 from rfl] at hlen
    omega
  have hprefix : Layout.ordered.LongestPrefix 2 (first ++ second.take 7) [first] (second.take 7) :=
    ⟨by simpa using hfirst, rfl, by decide, .inr hshort⟩
  have hnot : ¬ Layout.ordered.Framed 2 (first ++ second.take 7) := by
    rintro ⟨entries, hlen, hs⟩
    obtain ⟨rfl, -⟩ := hprefix.unique (hs.longestPrefix (Nat.le_of_eq hlen))
    cases hlen
  obtain ⟨-, hwhole⟩ := haccepts _ rfl hspells
  obtain ⟨entries, rest, e, hentries, hstops, hcut⟩ := hrejects hnot
  obtain ⟨rfl, rfl⟩ := (hentries _ _).mp hprefix
  cases (hstops (.error (.truncated 10 8 7))).mp
    (.shortHeader (by decide) (List.cons_ne_nil _ _) (by decide))
  exact ⟨⟨hspells, hwhole.answer_eq (e := first) rfl, hwhole.answer_eq (e := second) rfl,
    hwhole.verdict⟩, hnot, hcut.answer_eq (e := first) rfl, hcut.verdict, hcut.silent 2 (by decide)⟩

end Checked
end TaggedStream
