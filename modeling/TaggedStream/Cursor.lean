import TaggedStream.Layout

/-!
# Reading a body entry by entry

Three tiers read the same entries with different care.

* `Layout.next?`    trusting: takes the declared size at its word
* `Checked.next`    guarded: every entry is inspected first, an error ends the run
* `Lenient.next`    guarded, but an error just ends the items

Each item shortens the rest of the body, so a run to the end (`drain`) is a recursion on its
length.
-/

namespace TaggedStream

/-- a place in a body: how much was read, and what is left -/
structure Cursor where
  offset : Nat
  rest : Bytes
  deriving DecidableEq, Repr, Inhabited

namespace Cursor

def start (body : Bytes) : Cursor := ⟨0, body⟩

def advance (c : Cursor) (n : Nat) : Cursor := ⟨c.offset + n, c.rest.drop n⟩

def remaining (c : Cursor) : Nat := c.rest.length

end Cursor

/-! ## trusting -/

/-- the next entry as declared; only for bodies known to be well formed -/
def Layout.next? (l : Layout) (c : Cursor) : Option (l.Item × Cursor) :=
  if c.rest.isEmpty then none
  else
    let size := l.entrySize c.rest
    some (l.decode (c.rest.take size), c.advance size)

/-! ## checked -/

structure Checked (l : Layout) where
  cursor : Cursor
  expected : UInt32
  decoded : Nat
  failed : Bool

namespace Checked

variable {l : Layout}

def start (l : Layout) (body : Bytes) (count : UInt32) : Checked l :=
  ⟨.start body, count, 0, false⟩

/-- the size of the next entry, if there is one and it is well formed -/
def inspect (c : Checked l) : Except StreamError (Option Nat) :=
  let offset := c.cursor.offset
  let rest := c.cursor.rest
  let expected := c.expected.toNat
  if rest.isEmpty then
    if c.decoded = expected then .ok none else .error (.countMismatch expected c.decoded)
  else if c.decoded = expected then
    .error (.countMismatch expected (min (c.decoded + 1) maxWord))
  else if rest.length < l.headerSize then
    .error (.truncated offset l.headerSize rest.length)
  else
    let size := l.entrySize rest
    if size < l.headerSize ∨ size = 0 then .error (.malformedEntry offset size)
    else if rest.length < size then .error (.truncated offset size rest.length)
    else if l.accepts (rest.take size) then .ok (some size)
    else .error (.malformedEntry offset size)

/-- an item, `none` at the end, or what is wrong; after an error always `none` -/
def next (c : Checked l) : Except StreamError (Option l.Item) × Checked l :=
  if c.failed then (.ok none, c)
  else
    match c.inspect with
    | .ok (some size) =>
      (.ok (some (l.decode (c.cursor.rest.take size))),
        { c with cursor := c.cursor.advance size, decoded := c.decoded + 1 })
    | .ok none => (.ok none, c)
    | .error e => (.error e, { c with failed := true })

theorem size_of_inspect {c : Checked l} {size : Nat} (h : c.inspect = .ok (some size)) :
    0 < size ∧ size ≤ c.cursor.rest.length ∧ size = l.entrySize c.cursor.rest := by
  simp only [inspect] at h
  split at h
  · split at h <;> cases h
  split at h
  · cases h
  split at h
  · cases h
  split at h
  · cases h
  split at h
  · cases h
  split at h
  · cases h
    omega
  · cases h

theorem isEmpty_of_inspect {c : Checked l} (h : c.inspect = .ok none) :
    c.cursor.rest.isEmpty = true := by
  simp only [inspect] at h
  split at h
  · assumption
  · repeat' split at h
    all_goals cases h

theorem next_item {c c' : Checked l} {item : l.Item} (h : c.next = (.ok (some item), c')) :
    ∃ size, c.inspect = .ok (some size) ∧ item = l.decode (c.cursor.rest.take size) ∧
      c' = { c with cursor := c.cursor.advance size, decoded := c.decoded + 1 } := by
  unfold next at h
  split at h
  · cases h
  · split at h
    · rename_i size hs
      cases h
      exact ⟨size, hs, rfl, rfl⟩
    · cases h
    · cases h

/-- an item takes at least a byte -/
theorem length_rest_of_next {c c' : Checked l} {item : l.Item}
    (h : c.next = (.ok (some item), c')) : c'.cursor.rest.length < c.cursor.rest.length := by
  obtain ⟨size, hs, -, rfl⟩ := next_item h
  obtain ⟨hpos, hle, -⟩ := size_of_inspect hs
  simp only [Cursor.advance, List.length_drop]
  omega

theorem length_payload_of_next {c c' : Checked l} {item : l.Item}
    (h : c.next = (.ok (some item), c')) :
    (l.payload item).length ≤ c.cursor.rest.length := by
  obtain ⟨size, -, rfl, -⟩ := next_item h
  exact Nat.le_trans (l.length_payload_decode _) (by rw [List.length_take]; omega)

/-- without an item nothing is read -/
theorem cursor_of_next {c c' : Checked l} {r : Except StreamError (Option l.Item)}
    (h : c.next = (r, c')) (hr : ∀ item, r ≠ .ok (some item)) : c'.cursor = c.cursor := by
  unfold next at h
  split at h
  · cases h; rfl
  · split at h
    · cases h
      exact absurd rfl (hr _)
    · cases h; rfl
    · cases h; rfl

/-- what one call answered, and the number of items up to then -/
structure Call (l : Layout) where
  outcome : Except StreamError (Option l.Item)
  decoded : Nat

/-- the calls up to the first that gives no item, and the state after it -/
def drain (c : Checked l) : List (Call l) × Checked l :=
  match h : c.next with
  | (.ok (some item), c') =>
    have := length_rest_of_next h
    (⟨.ok (some item), c'.decoded⟩ :: c'.drain.1, c'.drain.2)
  | (.ok none, c') => ([⟨.ok none, c'.decoded⟩], c')
  | (.error e, c') => ([⟨.error e, c'.decoded⟩], c')
termination_by c.cursor.rest.length

theorem length_rest_drain (c : Checked l) :
    c.drain.2.cursor.rest.length ≤ c.cursor.rest.length := by
  fun_induction drain c with
  | case1 c first c' hn hlt ih => exact Nat.le_of_lt (Nat.lt_of_le_of_lt ih hlt)
  | case2 c c' hn => exact Nat.le_of_eq (congrArg (·.rest.length) (cursor_of_next hn nofun))
  | case3 c e c' hn => exact Nat.le_of_eq (congrArg (·.rest.length) (cursor_of_next hn nofun))

/-- the calls of a run, and one more after it has stopped -/
def calls (c : Checked l) : List (Call l) :=
  c.drain.1 ++ [⟨c.drain.2.next.1, c.drain.2.next.2.decoded⟩]

/-- the items of a run -/
def items (c : Checked l) : List l.Item :=
  c.drain.1.filterMap fun call => match call.outcome with
    | .ok item => item
    | .error _ => none

theorem length_payload_of_mem_drain {c : Checked l} {item : l.Item} {n : Nat}
    (h : ⟨.ok (some item), n⟩ ∈ c.drain.1) : (l.payload item).length ≤ c.cursor.rest.length := by
  fun_induction drain c with
  | case1 c first c' hn hlt ih =>
    rcases List.mem_cons.mp h with e | e
    · cases e
      exact length_payload_of_next hn
    · exact Nat.le_of_lt (Nat.lt_of_le_of_lt (ih e) hlt)
  | case2 => simp at h
  | case3 => simp at h

theorem length_payload_of_mem_calls {c : Checked l} {item : l.Item} {n : Nat}
    (h : ⟨.ok (some item), n⟩ ∈ c.calls) : (l.payload item).length ≤ c.cursor.rest.length := by
  rcases List.mem_append.mp h with e | e
  · exact length_payload_of_mem_drain e
  · rw [List.mem_singleton] at e
    have ho : Except.ok (some item) = c.drain.2.next.1 := congrArg Call.outcome e
    have hn : c.drain.2.next = (.ok (some item), c.drain.2.next.2) := by rw [ho]
    exact Nat.le_trans (length_payload_of_next hn) (length_rest_drain c)

end Checked

/-! ## lenient -/

structure Lenient (l : Layout) where
  checked : Checked l

namespace Lenient

variable {l : Layout}

def start (l : Layout) (body : Bytes) (count : UInt32) : Lenient l := ⟨.start l body count⟩

/-- an error is the end -/
def next (c : Lenient l) : Option l.Item × Lenient l :=
  match c.checked.next with
  | (.ok item, c') => (item, ⟨c'⟩)
  | (.error _, c') => (none, ⟨c'⟩)

/-- no more items than this are to come -/
def upperBound (c : Lenient l) : Nat := c.checked.expected.toNat - c.checked.decoded

/-- how many items are to come, from below and from above; nothing is promised from below -/
def sizeHint (c : Lenient l) : Nat × Option Nat := (0, some c.upperBound)

theorem length_rest_of_next {c c' : Lenient l} {item : l.Item}
    (h : c.next = (some item, c')) :
    c'.checked.cursor.rest.length < c.checked.cursor.rest.length := by
  unfold next at h
  split at h
  · rename_i hc
    cases h
    exact Checked.length_rest_of_next hc
  · cases h

/-- the items, each with the state after it, and the state after the end -/
def drain (c : Lenient l) : List (l.Item × Lenient l) × Lenient l :=
  match h : c.next with
  | (some item, c') =>
    have := length_rest_of_next h
    ((item, c') :: c'.drain.1, c'.drain.2)
  | (none, c') => ([], c')
termination_by c.checked.cursor.rest.length

end Lenient

/-! ## trusting, one inspected entry at a time -/

/-- how a guarded run of the trusting tier stops -/
inductive Stop where
  | ended
  | refused
  deriving DecidableEq, Repr, Inhabited

/-- whether an entry stands at the front of `rest`, read for itself -/
def Layout.admits (l : Layout) (rest : Bytes) : Bool :=
  match (Checked.start l rest 0xFFFFFFFF).inspect with
  | .ok _ => true
  | .error _ => false

theorem Layout.length_rest_of_next? {l : Layout} {c c' : Cursor} {item : l.Item}
    (ha : l.admits c.rest = true) (h : l.next? c = some (item, c')) :
    c'.rest.length < c.rest.length := by
  unfold next? at h
  split at h
  · cases h
  · rename_i hne
    cases h
    unfold admits at ha
    split at ha
    · rename_i size hs
      cases size with
      | none => exact absurd (Checked.isEmpty_of_inspect hs) hne
      | some size =>
        obtain ⟨hpos, hle, rfl⟩ := Checked.size_of_inspect hs
        simp only [Checked.start, Cursor.start] at hpos hle
        simp only [Cursor.advance, List.length_drop]
        omega
    · cases ha

/-- the entries of the trusting tier, each with the place after it, up to the end or to the first
rest that no entry starts -/
def Layout.explore (l : Layout) (c : Cursor) : List (l.Item × Cursor) × Stop :=
  if c.rest.isEmpty then ([], .ended)
  else if ha : l.admits c.rest then
    match h : l.next? c with
    | some (item, c') =>
      have := length_rest_of_next? ha h
      let after := l.explore c'
      ((item, c') :: after.1, after.2)
    | none => ([], .ended)
  else ([], .refused)
termination_by c.rest.length

end TaggedStream
