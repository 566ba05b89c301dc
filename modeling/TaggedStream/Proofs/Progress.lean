import TaggedStream.Proofs.Tiers

/-!
# What a run of calls uses up

Every item of the checked reader takes at least a byte of the body and one of the declared count,
and the first answer that is no item is the last one that says anything.

* `Checked.yielded`, `Lenient.yielded`   the items among the first answers
* `Checked.Sound`          the reader stands in its body and has not passed its count
* `Checked.next_cases`     all that one call can do
* `Checked.decoded_after`, `Checked.offset_after`   what the items so far have used up
* `Checked.silent_after`   nothing but ends after the first answer without an item
-/

namespace TaggedStream

variable {l : Layout} {body : Bytes}

namespace Checked

/-- the items among the first `n` answers -/
def yielded (c : Checked l) (n : Nat) : List l.Item :=
  (List.range n).filterMap fun k => (c.answer k).toOption.join

theorem yielded_succ (c : Checked l) (n : Nat) :
    c.yielded (n + 1) = c.yielded n ++ (c.answer n).toOption.join.toList := by
  rw [yielded, yielded, List.range_succ, List.filterMap_append, List.filterMap_cons,
    List.filterMap_nil]
  cases (c.answer n).toOption.join <;> rfl

/-- the place is in the body, and the count is not passed -/
structure Sound (body : Bytes) (c : Checked l) : Prop where
  place : c.cursor.In body
  counted : c.decoded ≤ c.expected.toNat

theorem Sound.start (l : Layout) (body : Bytes) (count : UInt32) :
    Sound body (Checked.start l body count) :=
  ⟨.start body, Nat.zero_le _⟩

theorem decoded_ne_of_inspect {c : Checked l} {size : Nat} (h : c.inspect = .ok (some size)) :
    c.decoded ≠ c.expected.toNat := by
  simp only [inspect] at h
  split at h
  · split at h <;> cases h
  split at h
  · cases h
  · assumption

/-! ## one call -/

/-- after this call every answer is the end, and nothing moves -/
structure Silent (c c' : Checked l) : Prop where
  fixed : c'.next = (.ok none, c')
  cursor : c'.cursor = c.cursor
  expected : c'.expected = c.expected
  decoded : c'.decoded = c.decoded

/-- **One call**: an item that takes its entry and is counted, or an answer without an item and
silence from then on. -/
theorem next_cases (c : Checked l) :
    (∃ size, c.inspect = .ok (some size) ∧
      c.next = (.ok (some (l.decode (c.cursor.rest.take size))),
        { c with cursor := c.cursor.advance size, decoded := c.decoded + 1 })) ∨
    ((∀ item, c.next.1 ≠ .ok (some item)) ∧ Silent c c.next.2) := by
  by_cases hf : c.failed = true
  · have hn : c.next = (.ok none, c) := by rw [next, if_pos hf]
    rw [hn]
    refine .inr ⟨?_, hn, rfl, rfl, rfl⟩
    intro item h
    cases h
  cases hi : c.inspect with
  | error e =>
    have hn : c.next = (.error e, { c with failed := true }) := by rw [next, if_neg hf, hi]
    rw [hn]
    refine .inr ⟨?_, rfl, rfl, rfl, rfl⟩
    intro item h
    cases h
  | ok found =>
    cases found with
    | none =>
      have hn : c.next = (.ok none, c) := by rw [next, if_neg hf, hi]
      rw [hn]
      refine .inr ⟨?_, hn, rfl, rfl, rfl⟩
      intro item h
      cases h
    | some size => exact .inl ⟨size, rfl, by rw [next, if_neg hf, hi]⟩

theorem Sound.next {c : Checked l} (hs : Sound body c) : Sound body c.next.2 := by
  obtain ⟨size, hi, hn⟩ | ⟨-, hq⟩ := next_cases c
  · have hle := (size_of_inspect hi).2.1
    have hcount := hs.counted
    have hne := decoded_ne_of_inspect hi
    rw [hn]
    exact ⟨hs.place.advance hle, show c.decoded + 1 ≤ c.expected.toNat by omega⟩
  · exact ⟨hq.cursor ▸ hs.place, by rw [hq.decoded, hq.expected]; exact hs.counted⟩

theorem expected_next (c : Checked l) : c.next.2.expected = c.expected := by
  obtain ⟨size, -, hn⟩ | ⟨-, hq⟩ := next_cases c
  · rw [hn]
  · exact hq.expected

/-- an item is counted, any other answer is not -/
theorem decoded_next (c : Checked l) :
    c.next.2.decoded = c.decoded + c.next.1.toOption.join.toList.length := by
  obtain ⟨size, -, hn⟩ | ⟨hno, hq⟩ := next_cases c
  · rw [hn]
    rfl
  · rw [hq.decoded]
    cases hr : c.next.1 with
    | error e => rfl
    | ok found =>
      cases found with
      | none => rfl
      | some item => exact absurd hr (hno item)

/-- an item takes at least a byte -/
theorem offset_next (c : Checked l) :
    c.cursor.offset + c.next.1.toOption.join.toList.length ≤ c.next.2.cursor.offset := by
  obtain ⟨size, hi, hn⟩ | ⟨hno, hq⟩ := next_cases c
  · have hpos := (size_of_inspect hi).1
    rw [hn]
    show c.cursor.offset + 1 ≤ c.cursor.offset + size
    omega
  · rw [hq.cursor]
    cases hr : c.next.1 with
    | error e => exact Nat.le_refl _
    | ok found =>
      cases found with
      | none => exact Nat.le_refl _
      | some item => exact absurd hr (hno item)

/-! ## any number of calls -/

theorem Sound.after {c : Checked l} (hs : Sound body c) (n : Nat) : Sound body (c.after n) := by
  induction n with
  | zero => exact hs
  | succ n ih =>
    rw [after_succ]
    exact ih.next

theorem expected_after (c : Checked l) (n : Nat) : (c.after n).expected = c.expected := by
  induction n with
  | zero => rfl
  | succ n ih => rw [after_succ, expected_next, ih]

/-- **The counter is the number of items.** -/
theorem decoded_after (c : Checked l) (n : Nat) :
    (c.after n).decoded = c.decoded + (c.yielded n).length := by
  induction n with
  | zero => rfl
  | succ n ih =>
    rw [after_succ, decoded_next, ih, yielded_succ, List.length_append, Nat.add_assoc]
    rfl

theorem offset_after (c : Checked l) (n : Nat) :
    c.cursor.offset + (c.yielded n).length ≤ (c.after n).cursor.offset := by
  induction n with
  | zero => exact Nat.le_refl _
  | succ n ih =>
    have hstep := offset_next (c.after n)
    rw [after_succ, yielded_succ, List.length_append]
    show c.cursor.offset + ((c.yielded n).length
      + (c.after n).next.1.toOption.join.toList.length) ≤ _
    omega

theorem offset_after_item {c : Checked l} {n : Nat} {item : l.Item}
    (h : c.answer n = .ok (some item)) :
    (c.after n).cursor.offset + 1 ≤ (c.after (n + 1)).cursor.offset := by
  have hmoves := offset_next (c.after n)
  have hone : (c.after n).next.1 = .ok (some item) := h
  rw [hone] at hmoves
  rw [after_succ]
  exact hmoves

/-- what is still to come fits in the count -/
theorem length_yielded_le {c : Checked l} (hs : Sound body c) (n : Nat) :
    (c.yielded n).length ≤ c.expected.toNat - c.decoded := by
  have hle := (hs.after n).counted
  rw [decoded_after, expected_after] at hle
  omega

/-- a reader that starts yields no more items than are declared, and no more than there are bytes -/
theorem length_yielded_start (l : Layout) (body : Bytes) (count : UInt32) (n : Nat) :
    ((start l body count).yielded n).length ≤ min count.toNat body.length := by
  have hs := Sound.start l body count
  have hcount : ((start l body count).yielded n).length ≤ count.toNat := length_yielded_le hs n
  have hoffset : 0 + ((start l body count).yielded n).length
      ≤ ((start l body count).after n).cursor.offset := offset_after (start l body count) n
  have hin := (hs.after n).place.2
  omega

/-- **Silence.**  Once a call has answered anything but an item, every later one answers the end
and leaves the counter alone. -/
theorem silent_after {c : Checked l} {n : Nat} (hno : ∀ item, c.answer n ≠ .ok (some item))
    {m : Nat} (hm : n < m) :
    c.answer m = .ok none ∧ (c.after m).decoded = (c.after n).decoded := by
  have hq : Silent (c.after n) (c.after (n + 1)) := by
    rw [after_succ]
    obtain ⟨size, -, hn⟩ | ⟨-, hq⟩ := next_cases (c.after n)
    · exact absurd (congrArg Prod.fst hn) (hno _)
    · exact hq
  have hstay : ∀ k, c.after (n + 1 + k) = c.after (n + 1) := by
    intro k
    induction k with
    | zero => rfl
    | succ k ih => rw [← Nat.add_assoc, after_succ, ih, hq.fixed]
  obtain ⟨k, rfl⟩ := Nat.exists_eq_add_of_le (Nat.succ_le_of_lt hm)
  have hthere : c.after (n.succ + k) = c.after (n + 1) := hstay k
  refine ⟨?_, ?_⟩
  · show (c.after (n.succ + k)).next.1 = .ok none
    rw [hthere, hq.fixed]
  · rw [hthere, hq.decoded]

end Checked

/-! ## lenient -/

namespace Lenient

/-- the items among the first `n` answers -/
def yielded (c : Lenient l) (n : Nat) : List l.Item := (List.range n).filterMap c.answer

theorem answer_eq (c : Lenient l) (n : Nat) :
    c.answer n = (c.checked.answer n).toOption.join := by
  apply Option.ext
  intro item
  rw [answer_eq_some_iff]
  cases c.checked.answer n with
  | error e => exact ⟨nofun, nofun⟩
  | ok found => exact Except.ok.injEq found (some item) ▸ Iff.rfl

theorem yielded_eq (c : Lenient l) (n : Nat) : c.yielded n = c.checked.yielded n :=
  congrArg (fun f => (List.range n).filterMap f) (funext c.answer_eq)

theorem silent_after {c : Lenient l} {n : Nat} (hno : c.answer n = none) {m : Nat} (hm : n < m) :
    c.answer m = none ∧ (c.after m).checked.decoded = (c.after n).checked.decoded := by
  have hitem : ∀ item, c.checked.answer n ≠ .ok (some item) := by
    intro item h
    rw [(answer_eq_some_iff c n item).mpr h] at hno
    cases hno
  obtain ⟨hend, hdecoded⟩ := Checked.silent_after hitem hm
  rw [answer_eq, hend, checked_after, checked_after, hdecoded]
  exact ⟨rfl, rfl⟩

/-- the hint bounds what is still to come -/
theorem length_yielded_le {c : Lenient l} (hs : c.checked.Sound body) (n : Nat) :
    (c.yielded n).length ≤ c.upperBound := by
  rw [yielded_eq]
  exact Checked.length_yielded_le hs n

theorem upperBound_after_le (c : Lenient l) {n m : Nat} (h : n ≤ m) :
    (c.after m).upperBound ≤ (c.after n).upperBound := by
  have hmono : ∀ k, (c.checked.after n).decoded ≤ (c.checked.after (n + k)).decoded := by
    intro k
    induction k with
    | zero => exact Nat.le_refl _
    | succ k ih =>
      rw [← Nat.add_assoc, Checked.after_succ, Checked.decoded_next]
      omega
  obtain ⟨k, rfl⟩ := Nat.exists_eq_add_of_le h
  have hk := hmono k
  rw [upperBound, upperBound, checked_after, checked_after, Checked.expected_after,
    Checked.expected_after]
  omega

end Lenient
end TaggedStream
