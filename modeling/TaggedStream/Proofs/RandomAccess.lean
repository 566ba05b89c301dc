import TaggedStream.Proofs.Reads

/-!
# Static entries, one by one or by their index

An entry of a static stream is found by one multiplication, or by going through all entries before
it.  Both find the same bytes; they differ in where they stop, since only a run over the entries
looks at the declared count.

* `StaticMessage.firstEntries`   the entries of the first indices
* `StaticMessage.ending`         how a checked run over a body of some length ends
* `StaticMessage.longestPrefix`  a run finds the entries of the first indices
* `random_access_agrees`         **the two ways of reading side by side**
-/

namespace TaggedStream

namespace StaticMessage

def firstEntries (m : StaticMessage) (body : Bytes) (k : Nat) : List Bytes :=
  (List.range k).map fun i => body.slice (i * m.size) m.size

/-- the end of a run over a body of `length` bytes that declares `count` entries: too many bytes,
too few of them for a number of whole entries, or too few in the middle of an entry -/
def ending (m : StaticMessage) (count length : Nat) : Except StreamError Unit :=
  if length = count * m.size then .ok ()
  else if count * m.size < length then .error (.countMismatch count (min (count + 1) maxWord))
  else if length % m.size = 0 then .error (.countMismatch count (length / m.size))
  else .error (.truncated (length / m.size * m.size) m.size (length % m.size))

variable {m : StaticMessage} {body : Bytes} {count k i : Nat}

theorem firstEntries_succ (m : StaticMessage) (body : Bytes) (k : Nat) :
    m.firstEntries body (k + 1) = m.firstEntries body k ++ [body.slice (k * m.size) m.size] := by
  rw [firstEntries, List.range_succ, List.map_append]
  rfl

theorem length_firstEntries (m : StaticMessage) (body : Bytes) (k : Nat) :
    (m.firstEntries body k).length = k := by
  rw [firstEntries, List.length_map, List.length_range]

theorem flatten_firstEntries (m : StaticMessage) (body : Bytes) (k : Nat) :
    (m.firstEntries body k).flatten = body.take (k * m.size) := by
  induction k with
  | zero =>
    rw [Nat.zero_mul, List.take_zero]
    rfl
  | succ k ih =>
    rw [firstEntries_succ, List.flatten_append, List.flatten_singleton, ih, Nat.succ_mul,
      List.take_add]
    rfl

theorem getElem?_firstEntries (m : StaticMessage) (body : Bytes) (k i : Nat) :
    (m.firstEntries body k)[i]?
      = if i < k then some (body.slice (i * m.size) m.size) else none := by
  rw [firstEntries, List.getElem?_map]
  by_cases h : i < k
  · rw [List.getElem?_range h, if_pos h, Option.map_some]
  · rw [List.getElem?_eq_none (by rw [List.length_range]; omega), if_neg h, Option.map_none]

theorem succ_mul_le_iff (hsize : 0 < m.size) :
    (i + 1) * m.size ≤ body.length ↔ i < m.entryCount body :=
  (Nat.le_div_iff_mul_le hsize).symm

theorem entryAt?_eq (hsize : 0 < m.size) (body : Bytes) (i : Nat) :
    m.entryAt? body i
      = if i < m.entryCount body then some (body.slice (i * m.size) m.size) else none :=
  if_congr (succ_mul_le_iff hsize) rfl rfl

theorem mul_le_of_le_entryCount (h : k ≤ m.entryCount body) : k * m.size ≤ body.length :=
  Nat.le_trans (Nat.mul_le_mul_right _ h) (Nat.div_mul_le_self _ _)

theorem isEntry_of_mem_firstEntries (hsize : 0 < m.size) (h : k ≤ m.entryCount body) :
    ∀ e ∈ m.firstEntries body k, (Layout.static m.size).IsEntry e := by
  intro e he
  obtain ⟨i, hi, rfl⟩ := List.mem_map.mp he
  have hlt : i < m.entryCount body := Nat.lt_of_lt_of_le (List.mem_range.mp hi) h
  have hle : i * m.size + m.size ≤ body.length := by
    rw [← Nat.succ_mul]
    exact (succ_mul_le_iff hsize).mpr hlt
  exact .static hsize (Bytes.length_slice_of_le hle)

/-- **A run finds the entries of the first indices**, as many as are declared and are there. -/
theorem longestPrefix (hsize : 0 < m.size) (body : Bytes) (count : Nat) :
    (Layout.static m.size).LongestPrefix count body
      (m.firstEntries body (min count (m.entryCount body)))
      (body.drop (min count (m.entryCount body) * m.size)) := by
  refine ⟨isEntry_of_mem_firstEntries hsize (Nat.min_le_right _ _), ?_, ?_, ?_⟩
  · rw [flatten_firstEntries, List.take_append_drop]
  · rw [length_firstEntries]
    exact Nat.min_le_left _ _
  · rw [length_firstEntries]
    rcases Nat.le_total count (m.entryCount body) with hle | hle
    · exact .inl (Nat.min_eq_left hle)
    · -- the rest is what a division leaves, so it is too short for an entry
      refine .inr ?_
      intro e after he hsplit
      have hlen := congrArg List.length hsplit
      have hlt := Nat.mod_lt body.length hsize
      have hmod := Nat.div_add_mod' body.length m.size
      cases he with
      | static pos len =>
        rw [Nat.min_eq_right hle, List.length_drop, List.length_append] at hlen
        rw [entryCount] at hlen
        omega

/-- where a run stops, there stands what the ending says -/
theorem stops_ending (hsize : 0 < m.size) (body : Bytes) (count : Nat) :
    (Layout.static m.size).Stops count (min count (m.entryCount body))
      (min count (m.entryCount body) * m.size)
      (body.drop (min count (m.entryCount body) * m.size)) (m.ending count body.length) := by
  have hlen : ∀ k, (body.drop (k * m.size)).length = body.length - k * m.size :=
    fun k => List.length_drop
  have hmod := Nat.div_add_mod' body.length m.size
  have hcount : count ≤ m.entryCount body ↔ count * m.size ≤ body.length :=
    Nat.le_div_iff_mul_le hsize
  unfold ending
  by_cases hall : body.length = count * m.size
  · have hk : min count (m.entryCount body) = count :=
      Nat.min_eq_left (hcount.mpr (Nat.le_of_eq hall.symm))
    rw [if_pos hall, hk, List.drop_of_length_le (Nat.le_of_eq hall)]
    exact .complete rfl
  by_cases hmore : count * m.size < body.length
  · have hk : min count (m.entryCount body) = count :=
      Nat.min_eq_left (hcount.mpr (Nat.le_of_lt hmore))
    rw [if_neg hall, if_pos hmore, hk]
    refine .surplus rfl ?_
    rw [← List.length_pos_iff, hlen]
    omega
  · have hlt : m.entryCount body < count := Nat.lt_of_not_le fun h => by
      have hfull := hcount.mp h
      omega
    rw [if_neg hall, if_neg hmore, Nat.min_eq_right (Nat.le_of_lt hlt)]
    have hrest : (body.drop (m.entryCount body * m.size)).length = body.length % m.size := by
      rw [hlen, entryCount]
      omega
    by_cases hzero : body.length % m.size = 0
    · rw [if_pos hzero, List.length_eq_zero_iff.mp (hrest.trans hzero)]
      exact .exhausted hlt
    · rw [if_neg hzero, ← hrest]
      have hne : body.drop (m.entryCount body * m.size) ≠ [] := by
        rw [← List.length_pos_iff]
        omega
      have hshort : (body.drop (m.entryCount body * m.size)).length < m.size :=
        hrest ▸ Nat.mod_lt _ hsize
      exact .shortEntry hlt hne (Nat.zero_le _) ⟨Nat.zero_le _, hsize⟩ hshort

theorem answer_eq (hsize : 0 < m.size) (body : Bytes) (count : UInt32) (n : Nat) :
    (Checked.start (.static m.size) body count).answer n
      = (Layout.static m.size).transcript
          (m.firstEntries body (min count.toNat (m.entryCount body)))
          (m.ending count.toNat body.length) n := by
  obtain ⟨verdict, hstop, hans⟩ := Checked.answer_start (longestPrefix hsize body count.toNat)
  have hle := mul_le_of_le_entryCount (Nat.min_le_right count.toNat (m.entryCount body))
  rw [length_firstEntries, flatten_firstEntries, List.length_take_of_le hle] at hstop
  rw [hans, hstop.unique (stops_ending hsize body count.toNat)]

end StaticMessage

/-- **Random access agrees with sequential reading.**  By its index an entry is found if and only
if the index is below the number of whole entries, however large it is: a place that is no size
lies beyond the bytes.  The checked tier yields the entries of the first indices, as many as are
declared and are there, then the end or the error that the length of the body settles, then nothing
any more; the lenient tier yields the same entries and nothing else. -/
theorem random_access_agrees (m : StaticMessage) (body : Bytes) (count : UInt32)
    (hsize : 0 < m.size) (hroom : body.length ≤ maxSize) :
    let found := min count.toNat (m.entryCount body)
    (∀ i, piece? body i m.size = m.entryAt? body i) ∧
    (∀ i, m.entryAt? body i
      = if i < body.length / m.size then some (body.slice (i * m.size) m.size) else none) ∧
    (∀ n, (Checked.start (.static m.size) body count).answer n
      = if n < found then .ok (m.entryAt? body n)
        else if n = found then (m.ending count.toNat body.length).map fun _ => none
        else .ok none) ∧
    (∀ n, (Lenient.start (.static m.size) body count).answer n
      = if n < found then m.entryAt? body n else none) := by
  intro found
  have hchecked : ∀ n, (Checked.start (.static m.size) body count).answer n
      = if n < found then .ok (m.entryAt? body n)
        else if n = found then (m.ending count.toNat body.length).map fun _ => none
        else .ok none := by
    intro n
    rw [StaticMessage.answer_eq hsize, Layout.transcript, StaticMessage.getElem?_firstEntries,
      StaticMessage.length_firstEntries]
    by_cases hn : n < found
    · have hin : n < m.entryCount body := Nat.lt_of_lt_of_le hn (Nat.min_le_right _ _)
      have hindex : n < min count.toNat (m.entryCount body) := hn
      rw [if_pos hn, if_pos hindex, StaticMessage.entryAt?_eq hsize, if_pos hin]
      rfl
    · have hindex : ¬ n < min count.toNat (m.entryCount body) := hn
      rw [if_neg hn, if_neg hindex]
  refine ⟨fun i => piece?_eq hroom i m.size, StaticMessage.entryAt?_eq hsize body, hchecked, ?_⟩
  intro n
  apply Option.ext
  intro item
  rw [Lenient.answer_eq_some_iff]
  show (Checked.start (.static m.size) body count).answer n = _ ↔ _
  rw [hchecked]
  by_cases hn : n < found
  · rw [if_pos hn, if_pos hn, Except.ok.injEq]
  · rw [if_neg hn, if_neg hn]
    split
    · cases m.ending count.toNat body.length <;> simp [Except.map]
    · simp

/-- ten bytes are two entries of four and the beginning of a third, and no index is too large -/
theorem third_entry_cut_short :
    let m : StaticMessage := ⟨0, 4, []⟩
    let body : Bytes := [1, 2, 3, 4, 5, 6, 7, 8, 9, 10]
    0 < m.size ∧ body.length ≤ maxSize ∧
      (Checked.start (.static m.size) body 3).answer 1 = .ok (some [5, 6, 7, 8]) ∧
      (Checked.start (.static m.size) body 3).answer 2 = .error (.truncated 8 4 2) ∧
      (Lenient.start (.static m.size) body 3).answer 2 = none ∧
      piece? body maxSize m.size = none := by
  intro m body
  have hsize : 0 < m.size := by decide
  have hroom : body.length ≤ maxSize := by decide
  obtain ⟨hpiece, hindex, hchecked, hlenient⟩ := random_access_agrees m body 3 hsize hroom
  refine ⟨hsize, hroom, (hchecked 1).trans (by decide), (hchecked 2).trans (by decide),
    (hlenient 2).trans (by decide), ?_⟩
  rw [hpiece, hindex]
  exact if_neg (by decide)

end TaggedStream
