import TaggedStream.Proofs.Handles
import TaggedStream.Proofs.Progress

/-!
# Reading bytes that nobody vouches for

The checked reader once more, with nothing taken for granted: it keeps the whole body and an
offset, every sum of sizes has to fit in a word of the machine, every read has to lie in the bytes,
the counter has 32 bits, and what the trusting tier asks of its caller is asserted before it reads.
Whatever breaks one of these rules is a `Fault`.

* `addSize`, `wordAt`, `range`, `demand`   sums, reads and assertions that can fault
* `Layout.sizeAt`, `Layout.validate`, `Layout.itemOf`   a layout in these terms
* `Guarded`, `Guarded.next`, `Guarded.nextItem`         the checked and the lenient reader
* `Guarded.Follows`                  the same place as a `Checked` reader
* `Guarded.calls_next`, `calls_nextItem`   any number of calls answer what the readers answer
* `Layout.Sized`                     what the shape of a message has to satisfy
* `readers_withstand_any_bytes`      no fault, no matter which bytes and which count
-/

namespace TaggedStream

/-! ## sums, reads and assertions -/

/-- a sum of sizes -/
def addSize (a b : Nat) : Except Fault Nat :=
  if a + b ≤ maxSize then .ok (a + b) else .error .overflow

/-- the 32-bit number at `offset` -/
def wordAt (b : Bytes) (offset : Nat) : Except Fault UInt32 := do
  let _ ← addSize offset 4
  Entry.readWord b offset

/-- the bytes from `start` up to `stop` -/
def range (b : Bytes) (start stop : Nat) : Except Fault Bytes :=
  if start ≤ stop ∧ stop ≤ b.length then .ok (b.slice start (stop - start))
  else .error .outOfRange

/-- an assertion -/
def demand (p : Prop) [Decidable p] : Except Fault Unit :=
  if p then .ok () else .error .outOfRange

theorem Bytes.word_drop (b : Bytes) (n offset : Nat) :
    Bytes.word (b.drop n) offset = b.word (n + offset) := by
  rw [word, word, slice, slice, List.drop_drop]

section
variable {a b offset start stop : Nat} {bytes : Bytes}

theorem addSize_ok (h : a + b ≤ maxSize) : addSize a b = .ok (a + b) := if_pos h

theorem wordAt_ok (h : offset + 4 ≤ bytes.length) (hroom : bytes.length ≤ maxSize) :
    wordAt bytes offset = .ok (bytes.word offset) := by
  rw [wordAt, addSize_ok (Nat.le_trans h hroom)]
  exact if_pos h

theorem range_ok (h : start ≤ stop) (hstop : stop ≤ bytes.length) :
    range bytes start stop = .ok (bytes.slice start (stop - start)) := if_pos ⟨h, hstop⟩

theorem demand_ok {p : Prop} [Decidable p] (h : p) : demand p = .ok () := if_pos h

end

/-! ## chunks -/

namespace ChunkShape

/-- the sizes of the present chunks, from the chunk with this index on, added to `total`; a mask
has no bit for an index above 31 -/
def addPresent (mask : UInt32) : (index total : Nat) → List Nat → Except Fault Nat
  | _, total, [] => .ok total
  | index, total, n :: rest => do
    demand (index < 32)
    if mask.toNat.testBit index then
      let total ← addSize total n
      addPresent mask (index + 1) total rest
    else addPresent mask (index + 1) total rest

def sizeOf (c : ChunkShape) (mask : UInt32) : Except Fault Nat := do
  let chunks ← addPresent mask 0 0 c.chunkSizes
  let fixed ← addSize headerSize c.baseSize
  addSize fixed chunks

/-- a mask without undeclared bits comes first: only then are sizes summed -/
def validate (c : ChunkShape) (entry : Bytes) : Except Fault Bool := do
  let mask ← wordAt entry 4
  if mask.toNat >>> c.chunkSizes.length = 0 then
    return (← c.sizeOf mask) == entry.length
  else
    return false

/-- a mask has a bit for every chunk, and the entry with all of them has a size -/
def Sized (c : ChunkShape) : Prop :=
  c.chunkSizes.length ≤ 32 ∧ headerSize + c.baseSize + c.chunkSizes.sum ≤ maxSize

theorem presentSize_le_sum (mask : Nat) (sizes : List Nat) :
    presentSize mask sizes ≤ sizes.sum := by
  induction sizes generalizing mask with
  | nil => exact Nat.le_refl _
  | cons n rest ih =>
    have hrest := ih (mask / 2)
    rw [presentSize_cons, List.sum_cons]
    split <;> omega

/-- the mask is looked at bit by bit -/
theorem presentSize_shiftRight_cons (mask index n : Nat) (rest : List Nat) :
    presentSize (mask >>> index) (n :: rest)
      = (if mask.testBit index then n else 0) + presentSize (mask >>> (index + 1)) rest := by
  have hbit : mask.testBit index = decide (mask >>> index % 2 = 1) :=
    Nat.testBit_eq_decide_div_mod_eq ▸ Nat.shiftRight_eq_div_pow _ _ ▸ rfl
  rw [presentSize_cons, ← Nat.shiftRight_succ, hbit]
  simp only [decide_eq_true_eq]

theorem addPresent_ok (mask : UInt32) {sizes : List Nat} {index total : Nat}
    (hbits : index + sizes.length ≤ 32) (hroom : total + sizes.sum ≤ maxSize) :
    addPresent mask index total sizes
      = .ok (total + presentSize (mask.toNat >>> index) sizes) := by
  induction sizes generalizing index total with
  | nil => rfl
  | cons n rest ih =>
    rw [List.length_cons] at hbits
    rw [List.sum_cons] at hroom
    rw [addPresent, demand_ok (by omega), ok_bind, presentSize_shiftRight_cons]
    split
    · rw [addSize_ok (by omega), ok_bind, ih (by omega) (by omega), Nat.add_assoc]
    · rw [Nat.zero_add, ih (by omega) (by omega)]

theorem sizeOf_ok {c : ChunkShape} (hc : c.Sized) (mask : UInt32) :
    c.sizeOf mask = .ok (c.entrySize mask) := by
  have hle := presentSize_le_sum mask.toNat c.chunkSizes
  obtain ⟨hbits, hroom⟩ := hc
  have hchunks : addPresent mask 0 0 c.chunkSizes
      = .ok (presentSize mask.toNat c.chunkSizes) := by
    rw [addPresent_ok mask (by omega) (by omega), Nat.zero_add, Nat.shiftRight_zero]
  have hfixed : addSize headerSize c.baseSize = .ok (headerSize + c.baseSize) :=
    addSize_ok (by omega)
  have hall : addSize (headerSize + c.baseSize) (presentSize mask.toNat c.chunkSizes)
      = .ok (c.entrySize mask) := addSize_ok (by omega)
  rw [sizeOf, hchunks, ok_bind, hfixed, ok_bind, hall]

theorem declares_iff (c : ChunkShape) (mask : UInt32) :
    c.declares mask = true ↔ mask.toNat >>> c.chunkSizes.length = 0 := by
  have hpos : 0 < 2 ^ c.chunkSizes.length := Nat.two_pow_pos _
  rw [declares, decide_eq_true_eq, Nat.one_shiftLeft, Nat.shiftRight_eq_div_pow,
    Nat.div_eq_zero_iff]
  omega

theorem validate_ok {c : ChunkShape} (hc : c.Sized) {entry : Bytes}
    (h : headerSize ≤ entry.length) (hroom : entry.length ≤ maxSize) :
    c.validate entry
      = .ok (c.declares (entry.word 4) && c.entrySize (entry.word 4) == entry.length) := by
  rw [validate, wordAt_ok h hroom, ok_bind]
  by_cases hm : (entry.word 4).toNat >>> c.chunkSizes.length = 0
  · rw [if_pos hm, sizeOf_ok hc, ok_bind, (c.declares_iff _).mpr hm, Bool.true_and]
    rfl
  · rw [if_neg hm, Bool.eq_false_iff.mpr fun h => hm ((c.declares_iff _).mp h), Bool.false_and]
    rfl

end ChunkShape

/-! ## layouts -/

namespace Layout

/-- the size, header included, that the entry at `offset` declares -/
def sizeAt : (l : Layout) → (body : Bytes) → (offset : Nat) → Except Fault Nat
  | static size, _, _ => .ok size
  | chunked _, body, offset => do
    let size ← wordAt body offset
    return size.toNat
  | dynamic, body, offset => do
    let size ← wordAt body offset
    return min (4 + size.toNat) maxSize
  | ordered, body, offset => do
    let field ← addSize offset 4
    let size ← wordAt body field
    return min (8 + size.toNat) maxSize

def validate : (l : Layout) → (entry : Bytes) → Except Fault Bool
  | chunked shape, entry => shape.validate entry
  | _, _ => .ok true

def itemOf : (l : Layout) → (entry : Bytes) → Except Fault l.Item
  | static _, entry => .ok entry
  | chunked _, entry => .ok entry
  | dynamic, entry => Entry.tail entry 4
  | ordered, entry => do
    let id ← wordAt entry 0
    let payload ← Entry.tail entry 8
    return ⟨id, payload⟩

/-- what a message has to be like: only chunks are bounded, a fixed size may be any, even none -/
def Sized : Layout → Prop
  | chunked shape => shape.Sized
  | _ => True

variable {l : Layout} {body entry : Bytes} {offset : Nat}

theorem sizeAt_ok (h : offset + l.headerSize ≤ body.length) (hroom : body.length ≤ maxSize) :
    l.sizeAt body offset = .ok (l.entrySize (body.drop offset)) := by
  cases l with
  | static size => rfl
  | chunked shape =>
    have h8 : offset + 8 ≤ body.length := h
    have h4 : offset + 4 ≤ body.length := by omega
    rw [sizeAt, wordAt_ok h4 hroom, ok_bind, entrySize, Bytes.word_drop, Nat.add_zero]
    rfl
  | dynamic =>
    have hlt := (body.word offset).toNat_lt
    rw [sizeAt, wordAt_ok h hroom, ok_bind, entrySize, Bytes.word_drop, Nat.add_zero]
    rw [Nat.min_eq_left (by unfold maxSize; omega)]
    rfl
  | ordered =>
    have h8 : offset + 4 + 4 ≤ body.length := h
    have hlt := (body.word (offset + 4)).toNat_lt
    rw [sizeAt, addSize_ok (by omega), ok_bind, wordAt_ok h8 hroom, ok_bind, entrySize,
      Bytes.word_drop, Nat.min_eq_left (by unfold maxSize; omega)]
    rfl

theorem validate_ok (hl : l.Sized) (h : l.headerSize ≤ entry.length)
    (hroom : entry.length ≤ maxSize) : l.validate entry = .ok (l.accepts entry) := by
  cases l with
  | static size => rfl
  | chunked shape => exact ChunkShape.validate_ok hl h hroom
  | dynamic => rfl
  | ordered => rfl

theorem itemOf_ok (h : l.headerSize ≤ entry.length) (hroom : entry.length ≤ maxSize) :
    l.itemOf entry = .ok (l.decode entry) := by
  cases l with
  | static size => rfl
  | chunked shape => rfl
  | dynamic => exact if_pos h
  | ordered =>
    have h8 : 8 ≤ entry.length := h
    have htail : Entry.tail entry 8 = .ok (entry.drop 8) := if_pos h
    rw [itemOf, wordAt_ok (by omega) hroom, ok_bind, htail]
    rfl

end Layout

/-! ## the reader -/

/-- a checked reader that keeps the whole body, and a counter of 32 bits -/
structure Guarded (l : Layout) where
  bytes : Bytes
  offset : Nat
  expected : UInt32
  decoded : UInt32
  failed : Bool

namespace Guarded

variable {l : Layout}

def start (l : Layout) (bytes : Bytes) (count : UInt32) : Guarded l := ⟨bytes, 0, count, 0, false⟩

/-- whether a well-formed entry comes next -/
def inspect (g : Guarded l) : Except Fault (Except StreamError Bool) := do
  let available := g.bytes.length - g.offset
  if available = 0 then
    if g.decoded = g.expected then return .ok false
    else return .error (.countMismatch g.expected.toNat g.decoded.toNat)
  else if g.decoded = g.expected then
    return .error (.countMismatch g.expected.toNat (min (g.decoded.toNat + 1) maxWord))
  else if available < l.headerSize then
    return .error (.shortOf g.offset l.headerSize g.bytes.length)
  else
    let size ← l.sizeAt g.bytes g.offset
    if size < l.headerSize ∨ size = 0 then return .error (.malformedEntry g.offset size)
    else if available < size then return .error (.shortOf g.offset size g.bytes.length)
    else
      let stop ← addSize g.offset size
      let entry ← range g.bytes g.offset stop
      let accepted ← l.validate entry
      return if accepted then .ok true else .error (.malformedEntry g.offset size)

/-- the trusting reader at this place, with what it asks for -/
def take (g : Guarded l) : Except Fault (Option l.Item × Guarded l) := do
  if g.bytes.length ≤ g.offset then return (none, g)
  else
    let header ← addSize g.offset l.headerSize
    demand (header ≤ g.bytes.length)
    let size ← l.sizeAt g.bytes g.offset
    demand (l.headerSize ≤ size ∧ 0 < size)
    let stop ← addSize g.offset size
    demand (stop ≤ g.bytes.length)
    let entry ← range g.bytes g.offset stop
    let item ← l.itemOf entry
    return (some item, { g with offset := stop })

/-- one more item -/
def count (decoded : UInt32) : Except Fault UInt32 :=
  if decoded.toNat < maxWord then .ok (decoded + 1) else .error .overflow

/-- a call of the checked tier -/
def next (g : Guarded l) : Except Fault (Except StreamError (Option l.Item) × Guarded l) := do
  if g.failed then return (.ok none, g)
  else
    match ← g.inspect with
    | .ok true =>
      let decoded ← count g.decoded
      let (item, g) ← take { g with decoded }
      return (.ok item, g)
    | .ok false => return (.ok none, g)
    | .error e => return (.error e, { g with failed := true })

/-- a call of the lenient tier -/
def nextItem (g : Guarded l) : Except Fault (Option l.Item × Guarded l) := do
  match ← g.next with
  | (.ok item, g) => return (item, g)
  | (.error _, g) => return (none, g)

/-! ## in step with the checked reader -/

/-- the same place in the same body, with the same counters -/
structure Follows (body : Bytes) (g : Guarded l) (c : Checked l) : Prop where
  bytes : g.bytes = body
  offset : g.offset = c.cursor.offset
  expected : g.expected = c.expected
  decoded : g.decoded.toNat = c.decoded
  failed : g.failed = c.failed

variable {body : Bytes} {g : Guarded l} {c : Checked l}

theorem Follows.start (l : Layout) (body : Bytes) (count : UInt32) :
    Follows body (Guarded.start l body count) (.start l body count) :=
  ⟨rfl, rfl, rfl, rfl, rfl⟩

theorem Follows.all_counted (hf : Follows body g c) :
    g.decoded = g.expected ↔ c.decoded = c.expected.toNat := by
  rw [← hf.decoded, ← hf.expected, UInt32.toNat_inj]

theorem Follows.inspect (hf : Follows body g c) (hs : c.Sound body) (hl : l.Sized)
    (hroom : body.length ≤ maxSize) :
    g.inspect = .ok (c.inspect.map Option.isSome) := by
  have hlen := hs.place.length_rest
  have hrest : c.cursor.rest = body.drop c.cursor.offset := hs.place.1
  have hempty : c.cursor.rest.isEmpty = true ↔ c.cursor.rest.length = 0 := by
    rw [List.isEmpty_iff, List.length_eq_zero_iff]
  have hleft : body.length - c.cursor.offset = c.cursor.rest.length := by omega
  have hsize (h : l.headerSize ≤ c.cursor.rest.length) :
      l.sizeAt body c.cursor.offset = .ok (l.entrySize c.cursor.rest) := by
    rw [hrest]
    exact Layout.sizeAt_ok (by omega) hroom
  have hentry (h : l.entrySize c.cursor.rest ≤ c.cursor.rest.length) :
      range body c.cursor.offset (c.cursor.offset + l.entrySize c.cursor.rest)
        = .ok (c.cursor.rest.take (l.entrySize c.cursor.rest)) := by
    rw [range_ok (by omega) (by omega), Nat.add_sub_cancel_left, Bytes.slice, ← hrest]
  have hall := hf.all_counted
  rw [hf.expected] at hall
  unfold Guarded.inspect Checked.inspect
  simp only [hf.bytes, hf.offset, hf.expected, hf.decoded, hall, hleft, hempty,
    StreamError.shortOf]
  split
  · split <;> rfl
  split
  · rfl
  split
  · rfl
  rename_i hheader
  rw [hsize (Nat.le_of_not_lt hheader), ok_bind]
  split
  · rfl
  split
  · rfl
  rename_i hbounds hwhole
  have htake := List.length_take_of_le (Nat.le_of_not_lt hwhole)
  rw [addSize_ok (by omega), ok_bind, hentry (Nat.le_of_not_lt hwhole), ok_bind,
    Layout.validate_ok hl (by omega) (by omega), ok_bind]
  split <;> rfl

/-- what the trusting reader asks of a place is enough for it to read there -/
theorem take_ok {p : Cursor} (hp : l.Readable body p) (hroom : body.length ≤ maxSize)
    (hbytes : g.bytes = body) (hoffset : g.offset = p.offset) :
    g.take = .ok (some (l.decode (p.rest.take (l.entrySize p.rest))),
      { g with offset := p.offset + l.entrySize p.rest }) := by
  obtain ⟨hrest, hheader, hsize, hwhole⟩ := hp
  have hdeclared : l.sizeAt body p.offset = .ok (l.entrySize p.rest) := by
    rw [hrest]
    exact Layout.sizeAt_ok hheader hroom
  have hentry : range body p.offset (p.offset + l.entrySize p.rest)
      = .ok (p.rest.take (l.entrySize p.rest)) := by
    rw [range_ok (by omega) hwhole, Nat.add_sub_cancel_left, Bytes.slice, ← hrest]
  have hlen : (p.rest.take (l.entrySize p.rest)).length = l.entrySize p.rest := by
    rw [List.length_take, hrest, List.length_drop, ← hrest]
    omega
  rw [take, hbytes, hoffset, if_neg (by omega), addSize_ok (by omega), ok_bind,
    demand_ok hheader, ok_bind, hdeclared, ok_bind, demand_ok hsize, ok_bind,
    addSize_ok (by omega), ok_bind, demand_ok hwhole, ok_bind, hentry, ok_bind,
    Layout.itemOf_ok (by omega) (by omega)]
  rfl

/-- **A guarded call never faults**: it answers what the checked reader answers. -/
theorem Follows.next (hf : Follows body g c) (hs : c.Sound body) (hl : l.Sized)
    (hroom : body.length ≤ maxSize) :
    ∃ g', g.next = .ok (c.next.1, g') ∧ Follows body g' c.next.2 := by
  have hfailed := hf.failed
  unfold Guarded.next Checked.next
  by_cases hc : c.failed = true
  · rw [if_pos (hfailed.trans hc), if_pos hc]
    exact ⟨g, rfl, hf⟩
  rw [if_neg (hfailed.symm ▸ hc), if_neg hc, hf.inspect hs hl hroom, ok_bind]
  cases hi : c.inspect with
  | error e =>
    exact ⟨{ g with failed := true }, rfl, ⟨hf.bytes, hf.offset, hf.expected, hf.decoded, rfl⟩⟩
  | ok found =>
    cases found with
    | none => exact ⟨g, rfl, hf⟩
    | some size =>
      have hcounted := hs.counted
      have hne := Checked.decoded_ne_of_inspect hi
      have hword := c.expected.toNat_lt
      have hdecoded := hf.decoded
      obtain ⟨-, -, rfl⟩ := Checked.size_of_inspect hi
      have hcount : count g.decoded = .ok (g.decoded + 1) :=
        if_pos (by unfold maxWord; omega)
      have hplus : (g.decoded + 1).toNat = c.decoded + 1 := by
        rw [UInt32.toNat_add, hdecoded]
        exact Nat.mod_eq_of_lt (show c.decoded + 1 < 2 ^ 32 by omega)
      have htake := take_ok (g := { g with decoded := g.decoded + 1 })
        (Checked.readable_of_inspect hi hs.place) hroom hf.bytes hf.offset
      refine ⟨{ g with
          offset := c.cursor.offset + l.entrySize c.cursor.rest, decoded := g.decoded + 1 },
        ?_, ⟨hf.bytes, rfl, hf.expected, hplus, hf.failed⟩⟩
      show (count g.decoded >>= fun decoded => _) = _
      rw [hcount, ok_bind, htake]
      rfl

theorem Follows.nextItem {c : Lenient l} (hf : Follows body g c.checked)
    (hs : c.checked.Sound body) (hl : l.Sized) (hroom : body.length ≤ maxSize) :
    ∃ g', g.nextItem = .ok (c.next.1, g') ∧ Follows body g' c.next.2.checked := by
  obtain ⟨g', hg, hf'⟩ := hf.next hs hl hroom
  refine ⟨g', ?_, ?_⟩
  · rw [Guarded.nextItem, hg, ok_bind, Lenient.next]
    cases c.checked.next with
    | mk r c' => cases r <;> rfl
  · rw [Lenient.checked_next]
    exact hf'

end Guarded

/-! ## calls one after the other -/

/-- the answers of `n` calls, and the state after them -/
def calls {σ α : Type} (call : σ → Except Fault (α × σ)) (s : σ) :
    (n : Nat) → Except Fault (List α × σ)
  | 0 => .ok ([], s)
  | n + 1 => do
    let (first, s) ← call s
    let (others, s) ← calls call s n
    return (first :: others, s)

theorem calls_ok {σ τ α : Type} {call : σ → Except Fault (α × σ)} {step : τ → α × τ}
    {R : σ → τ → Prop}
    (hstep : ∀ s t, R s t → ∃ s', call s = .ok ((step t).1, s') ∧ R s' (step t).2)
    {s : σ} {t : τ} (h : R s t) (n : Nat) :
    ∃ s', calls call s n = .ok ((List.range n).map (answer step t), s') ∧
      R s' (stateAfter step t n) := by
  induction n generalizing s t with
  | zero => exact ⟨s, rfl, h⟩
  | succ n ih =>
    obtain ⟨s₁, hfirst, h₁⟩ := hstep s t h
    obtain ⟨s₂, hothers, h₂⟩ := ih h₁
    refine ⟨s₂, ?_, h₂⟩
    rw [calls, hfirst, ok_bind]
    show (calls call s₁ n >>= fun others => _) = _
    rw [hothers, ok_bind, List.range_succ_eq_map, List.map_cons, List.map_map]
    rfl

/-! ## the two guarded readers -/

namespace Guarded

variable {l : Layout} (body : Bytes) (count : UInt32) (hl : l.Sized)
  (hroom : body.length ≤ maxSize)
include hl hroom

theorem calls_next (n : Nat) :
    ∃ g, calls next (.start l body count) n
        = .ok ((List.range n).map (Checked.start l body count).answer, g) ∧
      g.Follows body ((Checked.start l body count).after n) := by
  have hstep : ∀ g (c : Checked l), Follows body g c ∧ c.Sound body →
      ∃ g', g.next = .ok (c.next.1, g') ∧ Follows body g' c.next.2 ∧ c.next.2.Sound body := by
    intro g c ⟨hf, hs⟩
    obtain ⟨g', hg, hf'⟩ := hf.next hs hl hroom
    exact ⟨g', hg, hf', hs.next⟩
  have hstart : Follows body (.start l body count) (Checked.start l body count) ∧
      (Checked.start l body count).Sound body := ⟨.start l body count, .start l body count⟩
  obtain ⟨g, hg, hf, -⟩ := calls_ok hstep hstart n
  exact ⟨g, hg, hf⟩

theorem calls_nextItem (n : Nat) :
    ∃ g, calls nextItem (.start l body count) n
        = .ok ((List.range n).map (Lenient.start l body count).answer, g) ∧
      g.Follows body ((Lenient.start l body count).after n).checked := by
  have hstep : ∀ g (c : Lenient l), Follows body g c.checked ∧ c.checked.Sound body →
      ∃ g', g.nextItem = .ok (c.next.1, g') ∧
        Follows body g' c.next.2.checked ∧ c.next.2.checked.Sound body := by
    intro g c ⟨hf, hs⟩
    obtain ⟨g', hg, hf'⟩ := hf.nextItem hs hl hroom
    exact ⟨g', hg, hf', Lenient.checked_next c ▸ hs.next⟩
  have hstart : Follows body (.start l body count) (Lenient.start l body count).checked ∧
      (Lenient.start l body count).checked.Sound body := ⟨.start l body count, .start l body count⟩
  obtain ⟨g, hg, hf, -⟩ := calls_ok hstep hstart n
  exact ⟨g, hg, hf⟩

end Guarded

/-- **Malformed bytes can neither crash nor hang the readers.**  No call of the checked reader or
of the lenient one faults, whatever the bytes and the count are; the counter is the number of items
and stays within the count; every item moves the offset on, so there are no more of them than the
count and the bytes allow; after the first answer without an item only ends follow; and the hint is
a bound on what is to come that never grows. -/
theorem readers_withstand_any_bytes (l : Layout) (body : Bytes) (count : UInt32) (hl : l.Sized)
    (hroom : body.length ≤ maxSize) :
    let checked := Checked.start l body count
    let lenient := Lenient.start l body count
    (∀ n, ∃ g, calls Guarded.next (.start l body count) n
        = .ok ((List.range n).map checked.answer, g) ∧ g.Follows body (checked.after n)) ∧
    (∀ n, ∃ g, calls Guarded.nextItem (.start l body count) n
        = .ok ((List.range n).map lenient.answer, g) ∧
        g.Follows body (lenient.after n).checked) ∧
    (∀ n, (checked.after n).decoded = (checked.yielded n).length ∧
      (lenient.after n).checked.decoded = (lenient.yielded n).length ∧
      (checked.after n).decoded ≤ count.toNat) ∧
    (∀ n item, checked.answer n = .ok (some item) →
      (checked.after n).cursor.offset + 1 ≤ (checked.after (n + 1)).cursor.offset) ∧
    (∀ n, (checked.yielded n).length ≤ min count.toNat body.length ∧
      (lenient.yielded n).length ≤ min count.toNat body.length) ∧
    (∀ n, (∀ item, checked.answer n ≠ .ok (some item)) → ∀ m, n < m →
      checked.answer m = .ok none ∧ (checked.after m).decoded = (checked.after n).decoded) ∧
    (∀ n, lenient.answer n = none → ∀ m, n < m →
      lenient.answer m = none ∧
        (lenient.after m).checked.decoded = (lenient.after n).checked.decoded) ∧
    (∃ upper : Nat → Nat, (∀ n m, n ≤ m → upper m ≤ upper n) ∧
      ∀ n, (lenient.after n).sizeHint = (0, some (upper n)) ∧
        ∀ m, ((lenient.after n).yielded m).length ≤ upper n) := by
  intro checked lenient
  have hs : checked.Sound body := .start l body count
  have hdecoded : ∀ n, (checked.after n).decoded = (checked.yielded n).length := fun n => by
    rw [Checked.decoded_after]
    exact Nat.zero_add _
  have hitems := Checked.length_yielded_start l body count
  refine ⟨Guarded.calls_next body count hl hroom, Guarded.calls_nextItem body count hl hroom,
    ?_, fun n item => Checked.offset_after_item, ?_, fun n hno m => Checked.silent_after hno,
    fun n hno m => Lenient.silent_after hno, fun n => (lenient.after n).upperBound,
    fun n m => lenient.upperBound_after_le, ?_⟩
  · intro n
    refine ⟨hdecoded n, ?_, ?_⟩
    · rw [Lenient.checked_after, Lenient.yielded_eq]
      exact hdecoded n
    · have hle := (hs.after n).counted
      rw [Checked.expected_after] at hle
      exact hle
  · intro n
    refine ⟨hitems n, ?_⟩
    rw [Lenient.yielded_eq]
    exact hitems n
  · intro n
    have hn : (lenient.after n).checked.Sound body := by
      rw [Lenient.checked_after]
      exact hs.after n
    exact ⟨rfl, Lenient.length_yielded_le hn⟩

/-- an entry that claims four gigabytes and every chunk there could be is refused, once -/
theorem forged_chunks_refused :
    (Layout.chunked ⟨4, [2]⟩).Sized ∧
      ∃ g, calls Guarded.next
        (.start (.chunked ⟨4, [2]⟩) [255, 255, 255, 255, 255, 255, 255, 255, 0] 0xFFFFFFFF) 2
          = .ok ([.error (.truncated 0 0xFFFFFFFF 9), .ok none], g) := by
  have hsized : (Layout.chunked ⟨4, [2]⟩).Sized := ⟨by decide, by decide⟩
  obtain ⟨g, hg, -⟩ := (readers_withstand_any_bytes (.chunked ⟨4, [2]⟩)
    [255, 255, 255, 255, 255, 255, 255, 255, 0] 0xFFFFFFFF hsized (by decide)).1 2
  exact ⟨hsized, g, hg⟩

end TaggedStream
