import TaggedStream.Proofs.Calls
import TaggedStream.Proofs.Grammar

/-!
# What the checked reader accepts

The checked reader against the grammar of bodies: it yields the longest well-formed beginning of
a body and then says once why it stops.

* `Layout.Stops`        what stands at the place where no further entry can be read
* `Layout.transcript`   the answers of a run over given entries that ends with a given verdict
* `Checked.answer_of_longestPrefix`   every run is such a transcript
-/

namespace TaggedStream

/-! ## the place where a run stops -/

/-- why `k` of `count` entries were read and `rest`, found at `offset`, gives no other -/
inductive Layout.Stops (l : Layout) (count k offset : Nat) : Bytes → Except StreamError Unit → Prop
  | complete (hk : k = count) : Stops l count k offset [] (.ok ())
  | exhausted (hk : k < count) : Stops l count k offset [] (.error (.countMismatch count k))
  | surplus {rest : Bytes} (hk : k = count) (hr : rest ≠ []) :
      Stops l count k offset rest (.error (.countMismatch count (min (count + 1) maxWord)))
  | shortHeader {rest : Bytes} (hk : k < count) (hr : rest ≠ [])
      (hshort : rest.length < l.headerSize) :
      Stops l count k offset rest (.error (.truncated offset l.headerSize rest.length))
  | undersized {rest : Bytes} (hk : k < count) (hr : rest ≠ [])
      (hheader : l.headerSize ≤ rest.length)
      (hsize : l.entrySize rest < l.headerSize ∨ l.entrySize rest = 0) :
      Stops l count k offset rest (.error (.malformedEntry offset (l.entrySize rest)))
  | shortEntry {rest : Bytes} (hk : k < count) (hr : rest ≠ [])
      (hheader : l.headerSize ≤ rest.length)
      (hsize : l.headerSize ≤ l.entrySize rest ∧ 0 < l.entrySize rest)
      (hshort : rest.length < l.entrySize rest) :
      Stops l count k offset rest (.error (.truncated offset (l.entrySize rest) rest.length))
  | rejected {rest : Bytes} (hk : k < count) (hr : rest ≠ [])
      (hheader : l.headerSize ≤ rest.length)
      (hsize : l.headerSize ≤ l.entrySize rest ∧ 0 < l.entrySize rest)
      (hle : l.entrySize rest ≤ rest.length) (hno : ¬ l.IsEntry (rest.take (l.entrySize rest))) :
      Stops l count k offset rest (.error (.malformedEntry offset (l.entrySize rest)))

namespace Layout

variable {l : Layout} {count k offset : Nat} {body rest : Bytes}

theorem Stops.unique {v v' : Except StreamError Unit} (h : l.Stops count k offset rest v)
    (h' : l.Stops count k offset rest v') : v = v' := by
  cases h <;> cases h' <;> first | rfl | omega | contradiction

theorem Stops.complete_iff : l.Stops count k offset rest (.ok ()) ↔ k = count ∧ rest = [] := by
  constructor
  · intro h
    cases h with
    | complete hk => exact ⟨hk, rfl⟩
  · rintro ⟨hk, rfl⟩
    exact .complete hk

theorem exists_longestPrefix (l : Layout) (count : Nat) (body : Bytes) :
    ∃ entries rest, l.LongestPrefix count body entries rest := by
  induction count generalizing body with
  | zero => exact ⟨[], body, by simp, rfl, Nat.le_refl _, .inl rfl⟩
  | succ count ih =>
    by_cases h : ∃ e after, l.IsEntry e ∧ body = e ++ after
    · obtain ⟨e, after, he, rfl⟩ := h
      obtain ⟨entries, rest, hp⟩ := ih after
      refine ⟨e :: entries, rest, ?_, ?_, Nat.succ_le_succ hp.atMost, ?_⟩
      · intro e' hm
        rcases List.mem_cons.mp hm with rfl | hm
        · exact he
        · exact hp.entry e' hm
      · rw [List.flatten_cons, List.append_assoc, ← hp.split]
      · exact hp.longest.imp (congrArg (· + 1)) id
    · refine ⟨[], body, by simp, rfl, Nat.zero_le _, .inr ?_⟩
      exact fun e after he heq => h ⟨e, after, he, heq⟩

/-- the entries, then the verdict, then nothing any more -/
def transcript (l : Layout) (entries : List Bytes) (verdict : Except StreamError Unit) (n : Nat) :
    Except StreamError (Option l.Item) :=
  match entries[n]? with
  | some e => .ok (some (l.decode e))
  | none => if n = entries.length then verdict.map fun _ => none else .ok none

theorem transcript_cons_succ (e : Bytes) (es : List Bytes) (v : Except StreamError Unit)
    (n : Nat) : l.transcript (e :: es) v (n + 1) = l.transcript es v n := by
  simp only [transcript, List.getElem?_cons_succ, List.length_cons, Nat.add_right_cancel_iff]

theorem transcript_of_lt {entries : List Bytes} {v : Except StreamError Unit} {n : Nat}
    (h : n < entries.length) :
    l.transcript entries v n = .ok (some (l.decode entries[n])) := by
  rw [transcript, List.getElem?_eq_getElem h]

theorem transcript_length (entries : List Bytes) (v : Except StreamError Unit) :
    l.transcript entries v entries.length = v.map fun _ => none := by
  rw [transcript, List.getElem?_eq_none (Nat.le_refl _)]
  exact if_pos rfl

theorem transcript_of_gt {entries : List Bytes} {v : Except StreamError Unit} {n : Nat}
    (h : entries.length < n) : l.transcript entries v n = .ok none := by
  rw [transcript, List.getElem?_eq_none (Nat.le_of_lt h)]
  exact if_neg (by omega)

theorem transcript_ok (entries : List Bytes) (n : Nat) :
    l.transcript entries (.ok ()) n = .ok (entries[n]?.map l.decode) := by
  rw [transcript]
  cases entries[n]? with
  | some e => rfl
  | none => exact ite_self _

/-- items come first -/
theorem transcript_item_iff {entries : List Bytes} {v : Except StreamError Unit} {n : Nat} :
    (∃ item, l.transcript entries v n = .ok (some item)) ↔ n < entries.length := by
  constructor
  · rintro ⟨item, h⟩
    rcases Nat.lt_trichotomy n entries.length with hn | rfl | hn
    · exact hn
    · rw [transcript_length] at h
      cases v <;> cases h
    · rw [transcript_of_gt hn] at h
      cases h
  · exact fun h => ⟨_, transcript_of_lt h⟩

end Layout

/-! ## one call -/

namespace Checked

variable {l : Layout} {c : Checked l} {e r : Bytes}

/-- **An entry that is still wanted is yielded.** -/
theorem next_of_isEntry (hf : c.failed = false) (he : l.IsEntry e) (hr : c.cursor.rest = e ++ r)
    (hk : c.decoded < c.expected.toNat) :
    c.next = (.ok (some (l.decode e)),
      { c with cursor := ⟨c.cursor.offset + e.length, r⟩, decoded := c.decoded + 1 }) := by
  obtain ⟨hpos, hheader, -, haccepts⟩ := Layout.isEntry_iff.mp he
  have hsize : l.entrySize c.cursor.rest = e.length := by rw [hr, he.entrySize_append]
  have hlen : c.cursor.rest.length = e.length + r.length := by rw [hr, List.length_append]
  have htake : c.cursor.rest.take e.length = e := by rw [hr, List.take_left]
  have hdrop : c.cursor.rest.drop e.length = r := by rw [hr, List.drop_left]
  have hne : c.cursor.rest.isEmpty = false := by
    rw [hr, List.isEmpty_eq_false_iff]
    exact List.append_ne_nil_of_left_ne_nil he.ne_nil r
  have hin : c.inspect = .ok (some e.length) := by
    simp only [inspect, hsize, htake, haccepts, hne]
    rw [if_neg (by simp), if_neg (by omega), if_neg (by omega), if_neg (by omega),
      if_neg (by omega), if_pos trivial]
  simp only [next, hf, hin, htake, Cursor.advance, hdrop, Bool.false_eq_true, if_false]

/-- **Where no entry is wanted or none begins, the call gives the verdict.** -/
theorem inspect_of_stop (hk : c.decoded ≤ c.expected.toNat)
    (hno : c.decoded = c.expected.toNat ∨ ∀ e after, l.IsEntry e → c.cursor.rest ≠ e ++ after) :
    ∃ verdict, l.Stops c.expected.toNat c.decoded c.cursor.offset c.cursor.rest verdict ∧
      c.inspect = verdict.map fun _ => none := by
  obtain ⟨⟨offset, rest⟩, expected, decoded, failed⟩ := c
  simp only at hk hno
  simp only [inspect]
  by_cases hnil : rest = []
  · subst hnil
    by_cases hd : decoded = expected.toNat
    · refine ⟨.ok (), .complete hd, ?_⟩
      rw [if_pos List.isEmpty_nil, if_pos hd]; rfl
    · refine ⟨_, .exhausted (by omega), ?_⟩
      rw [if_pos List.isEmpty_nil, if_neg hd]; rfl
  · have hne : ¬ rest.isEmpty = true := by rwa [List.isEmpty_iff]
    rw [if_neg hne]
    by_cases hd : decoded = expected.toNat
    · refine ⟨_, .surplus hd hnil, ?_⟩
      rw [if_pos hd, hd]; rfl
    · have hlt : decoded < expected.toNat := by omega
      rw [if_neg hd]
      by_cases hh : rest.length < l.headerSize
      · refine ⟨_, .shortHeader hlt hnil hh, ?_⟩
        rw [if_pos hh]; rfl
      · rw [if_neg hh]
        by_cases hs : l.entrySize rest < l.headerSize ∨ l.entrySize rest = 0
        · refine ⟨_, .undersized hlt hnil (by omega) hs, ?_⟩
          rw [if_pos hs]; rfl
        · rw [if_neg hs]
          by_cases hl : rest.length < l.entrySize rest
          · refine ⟨_, .shortEntry hlt hnil (by omega) (by omega) hl, ?_⟩
            rw [if_pos hl]; rfl
          · -- a whole entry lies here, so its layout must refuse it
            have hnot : ¬ l.IsEntry (rest.take (l.entrySize rest)) := fun he =>
              (hno.resolve_left hd) _ (rest.drop (l.entrySize rest)) he
                (List.take_append_drop _ _).symm
            have hacc : ¬ l.accepts (rest.take (l.entrySize rest)) = true := fun h =>
              hnot ((Layout.isEntry_take (by omega) (by omega) (by omega)).mpr h)
            refine ⟨_, .rejected hlt hnil (by omega) (by omega) (by omega) hnot, ?_⟩
            rw [if_neg hl, if_neg hacc]; rfl

theorem answer_of_failed (hf : c.failed = true) (n : Nat) : c.answer n = .ok none := by
  have hn : c.next = (.ok none, c) := by rw [next, if_pos hf]
  have h := answer_of_fixed next (s := c) (by rw [hn]) n
  rwa [hn] at h

/-! ## a run -/

/-- **Every run is a transcript**: of the longest well-formed beginning, with the verdict on what
follows it. -/
theorem answer_of_longestPrefix {entries : List Bytes} (hf : c.failed = false)
    (hk : c.decoded ≤ c.expected.toNat)
    (hp : l.LongestPrefix (c.expected.toNat - c.decoded) c.cursor.rest entries r) :
    ∃ verdict, l.Stops c.expected.toNat (c.decoded + entries.length)
        (c.cursor.offset + entries.flatten.length) r verdict ∧
      ∀ n, c.answer n = l.transcript entries verdict n := by
  induction entries generalizing c with
  | nil =>
    have hr : c.cursor.rest = r := hp.split
    have hno : c.decoded = c.expected.toNat ∨
        ∀ e after, l.IsEntry e → c.cursor.rest ≠ e ++ after := by
      rw [hr]
      refine hp.longest.imp ?_ id
      intro h
      simp only [List.length_nil] at h
      omega
    obtain ⟨verdict, hstop, hin⟩ := inspect_of_stop hk hno
    rw [hr] at hstop
    refine ⟨verdict, hstop, ?_⟩
    intro n
    cases verdict with
    | ok u =>
      have hn : c.next = (.ok none, c) := by
        simp only [next, hf, hin, Bool.false_eq_true, if_false, Except.map]
      have h := answer_of_fixed next (s := c) (by rw [hn]) n
      rw [hn] at h
      refine h.trans ?_
      cases n <;> rfl
    | error err =>
      have hn : c.next = (.error err, { c with failed := true }) := by
        simp only [next, hf, hin, Bool.false_eq_true, if_false, Except.map]
      cases n with
      | zero => exact congrArg Prod.fst hn
      | succ n =>
        rw [answer_succ, hn]
        exact answer_of_failed rfl n
  | cons e es ih =>
    have he := hp.entry e List.mem_cons_self
    have hr : c.cursor.rest = e ++ (es.flatten ++ r) := by
      rw [hp.split, List.flatten_cons, List.append_assoc]
    have hlt : c.decoded < c.expected.toNat := by
      have := hp.atMost
      simp only [List.length_cons] at this
      omega
    have hn := next_of_isEntry hf he hr hlt
    have hp' : l.LongestPrefix (c.expected.toNat - (c.decoded + 1)) (es.flatten ++ r) es r := by
      refine ⟨fun e' hm => hp.entry e' (List.mem_cons_of_mem _ hm), rfl, ?_, ?_⟩
      · have := hp.atMost
        simp only [List.length_cons] at this
        omega
      · refine hp.longest.imp ?_ id
        intro h
        simp only [List.length_cons] at h
        omega
    obtain ⟨verdict, hstop, hans⟩ := ih
      (c := { c with cursor := ⟨c.cursor.offset + e.length, es.flatten ++ r⟩,
                     decoded := c.decoded + 1 }) hf hlt hp'
    refine ⟨verdict, ?_, ?_⟩
    · have hd : c.decoded + (e :: es).length = c.decoded + 1 + es.length := by
        rw [List.length_cons]; omega
      have ho : c.cursor.offset + (e :: es).flatten.length
          = c.cursor.offset + e.length + es.flatten.length := by
        rw [List.flatten_cons, List.length_append, Nat.add_assoc]
      rw [hd, ho]
      exact hstop
    · intro n
      cases n with
      | zero => exact congrArg Prod.fst hn
      | succ n => rw [answer_succ, hn, Layout.transcript_cons_succ, hans n]

theorem answer_start {entries : List Bytes} {body : Bytes} {count : UInt32}
    (hp : l.LongestPrefix count.toNat body entries r) :
    ∃ verdict, l.Stops count.toNat entries.length entries.flatten.length r verdict ∧
      ∀ n, (start l body count).answer n = l.transcript entries verdict n := by
  have h := answer_of_longestPrefix (c := start l body count) rfl (Nat.zero_le _) hp
  simpa only [start, Cursor.start, Nat.zero_add] using h

/-- a body of exactly the declared number of entries is read to its end -/
theorem answer_of_spells {entries : List Bytes} {body : Bytes} {count : UInt32}
    (hs : l.Spells entries body) (hlen : entries.length = count.toNat) (n : Nat) :
    (start l body count).answer n = l.transcript entries (.ok ()) n := by
  obtain ⟨verdict, hstop, hans⟩ := answer_start (hs.longestPrefix (Nat.le_of_eq hlen))
  rw [hans n, hstop.unique (.complete hlen)]

end Checked
end TaggedStream
