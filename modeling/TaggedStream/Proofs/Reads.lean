import TaggedStream.Proofs.Faultless

/-!
# Containers that nobody vouches for

The container reads once more, with nothing taken for granted: a sum or product of sizes stops at
`maxSize` or has no value above it, a range is taken only where it lies in the bytes, and a scalar
is read from a buffer that could be too short.  Next to them what a header says, as rules about the
bytes.

* `clampAdd`, `clampMul`, `addSize?`, `mulSize?`, `span?`, `piece?`   sums, products and ranges
* `Attempt`                          an answer or an error, or else a fault
* `Container.headerAt`, `regionAt`, `arrayAt`, `stringAt`, `subStreamAt`
                                   the readers in these terms
* `InlineArray.lengthAt`, `itemsAt`, `getAt`   an array in these terms
* `Container.Describes`, `SpellsText`, `HoldsStream`
                                   the rules: what an array, string or sub-stream field stands for
* `StreamError.Short`              what an error says that reports missing bytes
* `containers_withstand_any_bytes`   no fault, and exactly what the rules say
-/

namespace TaggedStream

/-! ## sums, products and ranges -/

/-- a sum of sizes that stays at `maxSize` once it gets there -/
def clampAdd (a b : Nat) : Nat := min (a + b) maxSize

def clampMul (a b : Nat) : Nat := min (a * b) maxSize

/-- a sum of sizes, if it is a size -/
def addSize? (a b : Nat) : Option Nat := if a + b ≤ maxSize then some (a + b) else none

def mulSize? (a b : Nat) : Option Nat := if a * b ≤ maxSize then some (a * b) else none

/-- the bytes from `start` up to `stop`, if there are that many -/
def range? (b : Bytes) (start stop : Nat) : Option Bytes :=
  if start ≤ stop ∧ stop ≤ b.length then some (b.slice start (stop - start)) else none

/-- the `len` bytes from `start` on, if the end is a size and lies in the bytes -/
def span? (b : Bytes) (start len : Nat) : Option Bytes := (addSize? start len).bind (range? b start)

section
variable {a b : Nat}

theorem clampAdd_eq (h : a + b ≤ maxSize) : clampAdd a b = a + b := Nat.min_eq_left h

theorem clampMul_eq (h : a * b ≤ maxSize) : clampMul a b = a * b := Nat.min_eq_left h

end

theorem span?_eq {b : Bytes} (hroom : b.length ≤ maxSize) (start len : Nat) :
    span? b start len = if start + len ≤ b.length then some (b.slice start len) else none := by
  rw [span?, addSize?]
  by_cases h : start + len ≤ b.length
  · rw [if_pos h, if_pos (Nat.le_trans h hroom), Option.bind_some, range?,
      if_pos ⟨Nat.le_add_right _ _, h⟩, Nat.add_sub_cancel_left]
  · rw [if_neg h]
    split
    · rw [Option.bind_some, range?, if_neg fun hrange => h hrange.2]
    · rfl

/-- piece number `i` of bytes that are cut every `n`, its start and its end computed as sizes -/
def piece? (b : Bytes) (i n : Nat) : Option Bytes :=
  (mulSize? i n).bind fun start => span? b start n

/-- an index whose place is no size lies beyond the bytes anyway -/
theorem piece?_eq {b : Bytes} (hroom : b.length ≤ maxSize) (i n : Nat) :
    piece? b i n = if (i + 1) * n ≤ b.length then some (b.slice (i * n) n) else none := by
  have hstop : (i + 1) * n = i * n + n := Nat.succ_mul _ _
  rw [piece?, hstop, mulSize?]
  by_cases hstart : i * n ≤ maxSize
  · rw [if_pos hstart, Option.bind_some, span?_eq hroom]
  · rw [if_neg hstart, if_neg (by omega)]
    rfl

/-! ## attempts -/

/-- an answer or an error, or else a fault -/
abbrev Attempt := ExceptT StreamError (Except Fault)

namespace Attempt

variable {α β : Type}

/-- an attempt that is no fault -/
def of (r : Except StreamError α) : Attempt α := ExceptT.mk (.ok r)

/-- attempts that are no faults follow one another as their contents do -/
theorem of_bind_of (r : Except StreamError α) {f : α → Attempt β} {g : α → Except StreamError β}
    (h : ∀ a, r = .ok a → f a = of (g a)) : (of r >>= f) = of (r >>= g) := by
  cases r with
  | error err => rfl
  | ok a => exact h a rfl

end Attempt

/-! ## arrays -/

namespace InlineArray

variable {t : ScalarType}

/-- pieces of `n` bytes; a rest that is shorter is left out -/
def pieces (n : Nat) (b : Bytes) : List Bytes :=
  if 0 < n ∧ n ≤ b.length then b.take n :: pieces n (b.drop n) else []
termination_by b.length
decreasing_by
  rw [List.length_drop]
  omega

def lengthAt (a : InlineArray t) : Except Fault Nat := do
  demand (0 < t.size)
  return a.bytes.length / t.size

def itemsAt (a : InlineArray t) : Except Fault (List t.Value) := do
  demand (0 < t.size)
  (pieces t.size a.bytes).mapM t.read

def getAt (a : InlineArray t) (i : Nat) : Except Fault (Option t.Value) :=
  match (mulSize? i t.size).bind fun start => span? a.bytes start t.size with
  | some b => (t.read b).map some
  | none => .ok none

theorem read_of_length {b : Bytes} (h : b.length = t.size) : t.read b = .ok (t.decode b) := by
  rw [ScalarType.read, if_pos (Nat.le_of_eq h.symm), ← h, List.take_length]

theorem mapM_read_pieces (b : Bytes) :
    (pieces t.size b).mapM t.read = .ok (toList (⟨b⟩ : InlineArray t)) := by
  have hpos := t.size_pos
  induction hn : b.length using Nat.strongRecOn generalizing b with
  | ind n ih =>
    rw [pieces, toList]
    by_cases h : t.size ≤ b.length
    · have hrest := ih (b.drop t.size).length (by rw [List.length_drop]; omega) _ rfl
      rw [if_pos ⟨hpos, h⟩, if_pos h, List.mapM_cons,
        read_of_length (List.length_take_of_le h), ok_bind, hrest]
      rfl
    · rw [if_neg fun hboth => h hboth.2, if_neg h]
      rfl

theorem itemsAt_ok (a : InlineArray t) : a.itemsAt = .ok a.toList := by
  rw [itemsAt, demand_ok t.size_pos, ok_bind, mapM_read_pieces]

theorem lengthAt_ok (a : InlineArray t) : a.lengthAt = .ok a.length := by
  rw [lengthAt, demand_ok t.size_pos]
  rfl

theorem length_toList (a : InlineArray t) : a.toList.length = a.length := by
  have hpos := t.size_pos
  obtain ⟨b⟩ := a
  induction hn : b.length using Nat.strongRecOn generalizing b with
  | ind n ih =>
    have hdiv := Nat.div_eq b.length t.size
    rw [toList, length]
    by_cases h : t.size ≤ b.length
    · have hrest := ih (b.drop t.size).length (by rw [List.length_drop]; omega) _ rfl
      rw [if_pos ⟨hpos, h⟩] at hdiv
      rw [if_pos h, List.length_cons, hrest, length, List.length_drop, hdiv]
    · rw [if_neg fun hboth => h hboth.2] at hdiv
      rw [if_neg h, hdiv]
      rfl

/-- an element taken by its index is the one that the walk over all elements finds there -/
theorem getElem?_toList (a : InlineArray t) (i : Nat) : a.toList[i]? = a.get? i := by
  have hpos := t.size_pos
  obtain ⟨b⟩ := a
  induction i generalizing b with
  | zero =>
    rw [toList, get?, Nat.zero_add, Nat.one_mul, Nat.zero_mul, Bytes.slice, List.drop_zero]
    split <;> rfl
  | succ i ih =>
    have hstep : (i + 1 + 1) * t.size = t.size + (i + 1) * t.size := by
      rw [Nat.succ_mul, Nat.add_comm]
    have hplace : (i + 1) * t.size = t.size + i * t.size := by rw [Nat.succ_mul, Nat.add_comm]
    rw [toList, get?, hstep]
    by_cases h : t.size ≤ b.length
    · have hiff : (i + 1) * t.size ≤ (b.drop t.size).length
          ↔ t.size + (i + 1) * t.size ≤ b.length := by
        rw [List.length_drop]
        omega
      rw [if_pos h, List.getElem?_cons_succ, ih, get?, hplace, Bytes.slice, Bytes.slice,
        List.drop_drop, ← hplace]
      exact if_congr hiff rfl rfl
    · have hshort : ¬t.size + (i + 1) * t.size ≤ b.length := by omega
      rw [if_neg h, if_neg hshort]
      rfl

theorem getAt_ok {a : InlineArray t} (hroom : a.bytes.length ≤ maxSize) (i : Nat) :
    a.getAt i = .ok (a.get? i) := by
  have hpiece := piece?_eq hroom i t.size
  rw [piece?] at hpiece
  rw [getAt, get?, hpiece]
  by_cases h : (i + 1) * t.size ≤ a.bytes.length
  · have hlen : i * t.size + t.size ≤ a.bytes.length := by rwa [← Nat.succ_mul]
    have hread := read_of_length (t := t) (Bytes.length_slice_of_le hlen)
    rw [if_pos h, if_pos h]
    simp only [hread, Except.map]
  · rw [if_neg h, if_neg h]

end InlineArray

/-- an error about missing bytes counts what a region of `length` bytes has from the offset on, and
that is too little -/
def StreamError.Short (length : Nat) : StreamError → Prop
  | truncated offset needed available => available = length - offset ∧ available < needed
  | _ => True

namespace Container

/-! ## the readers -/

def headerAt (e : Bytes) (offset : Nat) : Attempt UInt32 :=
  match span? e offset 4 with
  | some b => do
    let v ← ScalarType.u32.read b
    return UInt32.ofBitVec v
  | none => throw (.shortOf offset 4 e.length)

def regionAt (e : Bytes) (field elementSize : Nat) : Attempt Bytes := do
  let distance ← headerAt e field
  let count ← headerAt e (clampAdd field 4)
  if count = 0 then
    return []
  else
    let start := clampAdd field distance.toNat
    let len := clampMul count.toNat elementSize
    match span? e start len with
    | some data => return data
    | none => throw (.shortOf start len e.length)

def arrayAt (e : Bytes) (t : ScalarType) (field : Nat) : Attempt (InlineArray t) := do
  let data ← regionAt e field t.size
  return ⟨data⟩

def stringAt (e : Bytes) (field : Nat) : Attempt String := do
  let data ← regionAt e field 1
  match Text.decode? data with
  | some s => return s
  | none => throw (.invalidUtf8 field)

def subStreamAt (e : Bytes) (field : Nat) : Attempt (Option Content) := do
  let kind ← headerAt e field
  if kind = 0 then
    return none
  else
    match SchemaKind.ofNumber? kind with
    | none => throw (.unknownSchemaKind kind)
    | some known =>
      let id ← headerAt e (clampAdd field 4)
      let count ← headerAt e (clampAdd field 8)
      let body ← regionAt e (clampAdd field 12) 1
      return some ⟨some ⟨known, id⟩, count, body⟩

section
variable {e : Bytes} {field : Nat}

theorem headerAt_ok (hroom : e.length ≤ maxSize) (offset : Nat) :
    headerAt e offset = .of (headerWord e offset) := by
  rw [headerAt, headerWord, span?_eq hroom]
  by_cases h : offset + 4 ≤ e.length
  · have hread : ScalarType.u32.read (e.slice offset 4) = .ok (e.word offset).toBitVec :=
      InlineArray.read_of_length (Bytes.length_slice_of_le h)
    rw [if_pos h, if_pos h]
    simp only [hread]
    rfl
  · rw [if_neg h, if_neg h]
    rfl

/-- a distance keeps within the sizes: the header it stands in lies in the entry -/
theorem add_distance_le (h : field ≤ maxCapacity) (w : UInt32) : field + w.toNat ≤ maxSize := by
  have hw := w.toNat_lt
  unfold maxCapacity at h
  unfold maxSize
  omega

theorem mul_count_le {size : Nat} (h : size ≤ maxWord) (w : UInt32) :
    w.toNat * size ≤ maxSize := by
  have hw := w.toNat_lt
  have hword : w.toNat ≤ maxWord := by unfold maxWord; omega
  exact Nat.le_trans (Nat.mul_le_mul hword h) (by decide)

theorem clampAdd_distance (h : field ≤ maxCapacity) (w : UInt32) :
    clampAdd field w.toNat = field + w.toNat := clampAdd_eq (add_distance_le h w)

theorem clampMul_count {size : Nat} (h : size ≤ maxWord) (w : UInt32) :
    clampMul w.toNat size = w.toNat * size := clampMul_eq (mul_count_le h w)

variable (hroom : e.length ≤ maxCapacity)
include hroom

theorem room_of_capacity : e.length ≤ maxSize := Nat.le_trans hroom (by decide)

theorem regionAt_ok {size : Nat} (hsize : size ≤ maxWord) :
    regionAt e field size = .of (arrayRegion e field size) := by
  have hmax := room_of_capacity hroom
  rw [regionAt, arrayRegion, headerAt_ok hmax]
  refine Attempt.of_bind_of _ fun distance hdistance => ?_
  have hfield := (headerWord_ok hdistance).1
  rw [clampAdd_eq (by omega), headerAt_ok hmax]
  refine Attempt.of_bind_of _ fun count _ => ?_
  by_cases hzero : count = 0
  · rw [if_pos hzero, if_pos hzero]
    rfl
  · have hfar : field ≤ maxCapacity := by omega
    simp only [if_neg hzero, clampAdd_distance hfar, clampMul_count hsize, span?_eq hmax]
    by_cases hin : field + distance.toNat + count.toNat * size ≤ e.length
    · simp only [if_pos hin]
      rfl
    · simp only [if_neg hin]
      rfl

theorem arrayAt_ok (t : ScalarType) : arrayAt e t field = .of (array? e t field) := by
  have hsize : t.size ≤ maxWord := by cases t <;> decide
  rw [arrayAt, array?, regionAt_ok hroom hsize]
  cases arrayRegion e field t.size <;> rfl

theorem stringAt_ok : stringAt e field = .of (string? e field) := by
  rw [stringAt, string?, regionAt_ok hroom (by decide)]
  refine Attempt.of_bind_of _ fun data _ => ?_
  cases Text.decode? data <;> rfl

theorem subStreamAt_ok : subStreamAt e field = .of (subStream? e field) := by
  have hmax := room_of_capacity hroom
  rw [subStreamAt, subStream?, headerAt_ok hmax]
  refine Attempt.of_bind_of _ fun kind hkind => ?_
  have hfield := (headerWord_ok hkind).1
  by_cases hzero : kind = 0
  · rw [if_pos hzero, if_pos hzero]
    rfl
  rw [if_neg hzero, if_neg hzero]
  cases SchemaKind.ofNumber? kind with
  | none => rfl
  | some known =>
    simp only [headerAt_ok hmax]
    rw [clampAdd_eq (by omega)]
    refine Attempt.of_bind_of _ fun id hid => ?_
    have hid := (headerWord_ok hid).1
    rw [clampAdd_eq (by omega)]
    refine Attempt.of_bind_of _ fun count hcount => ?_
    have hcount := (headerWord_ok hcount).1
    rw [clampAdd_eq (by omega), regionAt_ok hroom (by decide)]
    cases arrayRegion e (field + 12) 1 <;> rfl

end

/-! ## what a field stands for -/

/-- what the array header at `field` describes, with elements of `size` bytes -/
inductive Describes (e : Bytes) (field size : Nat) : Except StreamError Bytes → Prop where
  | noDistance (h : e.length < field + 4) :
    Describes e field size (.error (.truncated field 4 (e.length - field)))
  | noCount (h : field + 4 ≤ e.length) (hcount : e.length < field + 8) :
    Describes e field size (.error (.truncated (field + 4) 4 (e.length - (field + 4))))
  | empty (h : field + 8 ≤ e.length) (hcount : (e.word (field + 4)).toNat = 0) :
    Describes e field size (.ok [])
  | data {distance count : Nat} (h : field + 8 ≤ e.length)
    (hdistance : (e.word field).toNat = distance) (hcount : (e.word (field + 4)).toNat = count)
    (hsome : 0 < count) (hin : field + distance + count * size ≤ e.length) :
    Describes e field size (.ok (e.slice (field + distance) (count * size)))
  | outside {distance count : Nat} (h : field + 8 ≤ e.length)
    (hdistance : (e.word field).toNat = distance) (hcount : (e.word (field + 4)).toNat = count)
    (hsome : 0 < count) (hout : e.length < field + distance + count * size) :
    Describes e field size (.error (.truncated (field + distance) (count * size)
      (e.length - (field + distance))))

/-- what the string header at `field` stands for -/
inductive SpellsText (e : Bytes) (field : Nat) : Except StreamError String → Prop where
  | unreadable {err : StreamError} (h : Describes e field 1 (.error err)) :
    SpellsText e field (.error err)
  | text {s : String} (h : Describes e field 1 (.ok (Text.encode s))) : SpellsText e field (.ok s)
  | notText {b : Bytes} (h : Describes e field 1 (.ok b)) (hno : ∀ s, Text.encode s ≠ b) :
    SpellsText e field (.error (.invalidUtf8 field))

/-- what the sub-stream header at `field` stands for, its words looked at from first to last -/
inductive HoldsStream (e : Bytes) (field : Nat) : Except StreamError (Option Content) → Prop where
  | noKind (h : e.length < field + 4) :
    HoldsStream e field (.error (.truncated field 4 (e.length - field)))
  | absent (h : field + 4 ≤ e.length) (hzero : e.word field = 0) : HoldsStream e field (.ok none)
  | unknown (h : field + 4 ≤ e.length) (hsome : e.word field ≠ 0)
    (hno : ∀ kind : SchemaKind, kind.number ≠ e.word field) :
    HoldsStream e field (.error (.unknownSchemaKind (e.word field)))
  | noId {kind : SchemaKind} (h : field + 4 ≤ e.length) (hkind : kind.number = e.word field)
    (hid : e.length < field + 8) :
    HoldsStream e field (.error (.truncated (field + 4) 4 (e.length - (field + 4))))
  | noCount {kind : SchemaKind} (h : field + 8 ≤ e.length) (hkind : kind.number = e.word field)
    (hcount : e.length < field + 12) :
    HoldsStream e field (.error (.truncated (field + 8) 4 (e.length - (field + 8))))
  | unreadable {kind : SchemaKind} {err : StreamError} (h : field + 12 ≤ e.length)
    (hkind : kind.number = e.word field) (hdata : Describes e (field + 12) 1 (.error err)) :
    HoldsStream e field (.error err)
  | stored {kind : SchemaKind} {body : Bytes} (h : field + 12 ≤ e.length)
    (hkind : kind.number = e.word field) (hdata : Describes e (field + 12) 1 (.ok body)) :
    HoldsStream e field
      (.ok (some ⟨some ⟨kind, e.word (field + 4)⟩, e.word (field + 8), body⟩))

section
variable {e : Bytes} {field : Nat}

theorem headerWord_of_le {offset : Nat} (h : offset + 4 ≤ e.length) :
    headerWord e offset = .ok (e.word offset) := if_pos h

theorem headerWord_of_lt {offset : Nat} (h : e.length < offset + 4) :
    headerWord e offset = .error (.truncated offset 4 (e.length - offset)) :=
  if_neg (Nat.not_le.mpr h)

theorem word_ne_zero {w : UInt32} (h : 0 < w.toNat) : w ≠ 0 := fun hzero => by
  rw [hzero] at h
  exact absurd h (by decide)

theorem Describes.region_eq {size : Nat} {r : Except StreamError Bytes}
    (h : Describes e field size r) : arrayRegion e field size = r := by
  cases h with
  | noDistance h => rw [arrayRegion, headerWord_of_lt h]; rfl
  | noCount h hcount =>
    rw [arrayRegion, headerWord_of_le h, ok_bind, headerWord_of_lt hcount]
    rfl
  | empty h hcount =>
    have hzero : e.word (field + 4) = 0 := UInt32.toNat_inj.mp hcount
    rw [arrayRegion, headerWord_of_le (by omega), ok_bind, headerWord_of_le h, ok_bind,
      if_pos hzero]
    rfl
  | data h hdistance hcount hsome hin =>
    subst hdistance hcount
    rw [arrayRegion, headerWord_of_le (by omega), ok_bind, headerWord_of_le h, ok_bind,
      if_neg (word_ne_zero hsome)]
    exact if_pos hin
  | outside h hdistance hcount hsome hout =>
    subst hdistance hcount
    rw [arrayRegion, headerWord_of_le (by omega), ok_bind, headerWord_of_le h, ok_bind,
      if_neg (word_ne_zero hsome)]
    exact if_neg (Nat.not_le.mpr hout)

theorem exists_describes (e : Bytes) (field size : Nat) : ∃ r, Describes e field size r := by
  by_cases hdistance : field + 4 ≤ e.length
  · by_cases hcount : field + 8 ≤ e.length
    · by_cases hzero : (e.word (field + 4)).toNat = 0
      · exact ⟨_, .empty hcount hzero⟩
      · have hsome := Nat.pos_of_ne_zero hzero
        by_cases hin : field + (e.word field).toNat + (e.word (field + 4)).toNat * size ≤ e.length
        · exact ⟨_, .data hcount rfl rfl hsome hin⟩
        · exact ⟨_, .outside hcount rfl rfl hsome (Nat.not_le.mp hin)⟩
    · exact ⟨_, .noCount hdistance (Nat.not_le.mp hcount)⟩
  · exact ⟨_, .noDistance (Nat.not_le.mp hdistance)⟩

theorem describes_iff (e : Bytes) (field size : Nat) (r : Except StreamError Bytes) :
    Describes e field size r ↔ arrayRegion e field size = r := by
  refine ⟨Describes.region_eq, ?_⟩
  rintro rfl
  obtain ⟨r, hr⟩ := exists_describes e field size
  rwa [hr.region_eq]

theorem SpellsText.string_eq {r : Except StreamError String} (h : SpellsText e field r) :
    string? e field = r := by
  cases h with
  | unreadable h => rw [string?, h.region_eq]; rfl
  | text h =>
    rw [string?, h.region_eq, ok_bind, Text.decode?_encode]
    rfl
  | @notText b h hno =>
    have hnone : Text.decode? b = none :=
      Option.eq_none_iff_forall_ne_some.mpr fun s hs => hno s (Text.encode_of_decode? hs)
    rw [string?, h.region_eq, ok_bind, hnone]
    rfl

theorem exists_spellsText (e : Bytes) (field : Nat) : ∃ r, SpellsText e field r := by
  obtain ⟨r, hr⟩ := exists_describes e field 1
  cases r with
  | error err => exact ⟨_, .unreadable hr⟩
  | ok b =>
    by_cases htext : ∃ s, Text.encode s = b
    · obtain ⟨s, rfl⟩ := htext
      exact ⟨_, .text hr⟩
    · exact ⟨_, .notText hr fun s hs => htext ⟨s, hs⟩⟩

theorem spellsText_iff (e : Bytes) (field : Nat) (r : Except StreamError String) :
    SpellsText e field r ↔ string? e field = r := by
  refine ⟨SpellsText.string_eq, ?_⟩
  rintro rfl
  obtain ⟨r, hr⟩ := exists_spellsText e field
  rwa [hr.string_eq]

/-- the kind of a sub-stream that is there, and what is read after it -/
theorem subStream?_of_kind {kind : SchemaKind} (h : field + 4 ≤ e.length)
    (hkind : kind.number = e.word field) :
    subStream? e field = do
      let id ← headerWord e (field + 4)
      let count ← headerWord e (field + 8)
      let body ← arrayRegion e (field + 12) 1
      return some ⟨some ⟨kind, id⟩, count, body⟩ := by
  have hsome : e.word field ≠ 0 := hkind ▸ kind.number_ne_zero
  have hknown : SchemaKind.ofNumber? (e.word field) = some kind :=
    hkind ▸ SchemaKind.ofNumber?_number kind
  rw [subStream?, headerWord_of_le h, ok_bind, if_neg hsome, hknown]

theorem HoldsStream.subStream_eq {r : Except StreamError (Option Content)}
    (h : HoldsStream e field r) : subStream? e field = r := by
  cases h with
  | noKind h => rw [subStream?, headerWord_of_lt h]; rfl
  | absent h hzero => rw [subStream?, headerWord_of_le h, ok_bind, if_pos hzero]; rfl
  | unknown h hsome hno =>
    have hnone : SchemaKind.ofNumber? (e.word field) = none :=
      Option.eq_none_iff_forall_ne_some.mpr fun kind hk =>
        hno kind (SchemaKind.number_of_ofNumber? hk)
    rw [subStream?, headerWord_of_le h, ok_bind, if_neg hsome, hnone]
    rfl
  | noId h hkind hid =>
    rw [subStream?_of_kind h hkind, headerWord_of_lt hid]
    rfl
  | noCount h hkind hcount =>
    rw [subStream?_of_kind (by omega) hkind, headerWord_of_le h, ok_bind, headerWord_of_lt hcount]
    rfl
  | unreadable h hkind hdata =>
    rw [subStream?_of_kind (by omega) hkind, headerWord_of_le (by omega), ok_bind,
      headerWord_of_le h, ok_bind, hdata.region_eq]
    rfl
  | stored h hkind hdata =>
    rw [subStream?_of_kind (by omega) hkind, headerWord_of_le (by omega), ok_bind,
      headerWord_of_le h, ok_bind, hdata.region_eq]
    rfl

theorem exists_holdsStream (e : Bytes) (field : Nat) : ∃ r, HoldsStream e field r := by
  rcases Nat.lt_or_ge e.length (field + 4) with h | hkind
  · exact ⟨_, .noKind h⟩
  by_cases hzero : e.word field = 0
  · exact ⟨_, .absent hkind hzero⟩
  by_cases hknown : ∀ kind : SchemaKind, kind.number ≠ e.word field
  · exact ⟨_, .unknown hkind hzero hknown⟩
  obtain ⟨kind, hk⟩ := Classical.not_forall_not.mp hknown
  rcases Nat.lt_or_ge e.length (field + 8) with h | hid
  · exact ⟨_, .noId hkind hk h⟩
  rcases Nat.lt_or_ge e.length (field + 12) with h | hcount
  · exact ⟨_, .noCount hid hk h⟩
  obtain ⟨r, hr⟩ := exists_describes e (field + 12) 1
  cases r with
  | error err => exact ⟨_, .unreadable hcount hk hr⟩
  | ok body => exact ⟨_, .stored hcount hk hr⟩

theorem holdsStream_iff (e : Bytes) (field : Nat) (r : Except StreamError (Option Content)) :
    HoldsStream e field r ↔ subStream? e field = r := by
  refine ⟨HoldsStream.subStream_eq, ?_⟩
  rintro rfl
  obtain ⟨r, hr⟩ := exists_holdsStream e field
  rwa [hr.subStream_eq]

end

/-! ## missing bytes -/

theorem Describes.short {e : Bytes} {field size : Nat} {err : StreamError} (hsize : 0 < size)
    (h : Describes e field size (.error err)) : err.Short e.length := by
  cases h with
  | noDistance h => exact ⟨rfl, by omega⟩
  | noCount h hcount => exact ⟨rfl, by omega⟩
  | outside h hdistance hcount hsome hout =>
    have hneeded := Nat.mul_pos hsome hsize
    exact ⟨rfl, by omega⟩

theorem SpellsText.short {e : Bytes} {field : Nat} {err : StreamError}
    (h : SpellsText e field (.error err)) : err.Short e.length := by
  cases h with
  | unreadable h => exact h.short Nat.one_pos
  | notText => trivial

theorem HoldsStream.short {e : Bytes} {field : Nat} {err : StreamError}
    (h : HoldsStream e field (.error err)) : err.Short e.length := by
  cases h with
  | noKind h => exact ⟨rfl, by omega⟩
  | unknown => trivial
  | noId h hkind hid => exact ⟨rfl, by omega⟩
  | noCount h hkind hcount => exact ⟨rfl, by omega⟩
  | unreadable h hkind hdata => exact hdata.short Nat.one_pos

/-! ## the arrays that are read -/

section
variable {e : Bytes} {field : Nat} {t : ScalarType}

/-- the rules for the array at `field`, told by the array that is read -/
theorem array_eq_iff (e : Bytes) (field : Nat) (t : ScalarType) (r : Except StreamError Bytes) :
    Describes e field t.size r ↔ (array? e t field).map InlineArray.bytes = r := by
  rw [describes_iff, array?]
  cases arrayRegion e field t.size <;> rfl

theorem describes_of_array {a : InlineArray t} (h : array? e t field = .ok a) :
    Describes e field t.size (.ok a.bytes) :=
  (array_eq_iff e field t _).mpr (h ▸ rfl)

theorem describes_of_array_error {err : StreamError} (h : array? e t field = .error err) :
    Describes e field t.size (.error err) :=
  (array_eq_iff e field t _).mpr (h ▸ rfl)

/-- an array has as many elements as its header says -/
theorem length_of_array {a : InlineArray t} (h : array? e t field = .ok a) :
    a.length = (e.word (field + 4)).toNat := by
  have hpos := t.size_pos
  rw [InlineArray.length]
  generalize hb : a.bytes = b
  have hd := hb ▸ describes_of_array h
  cases hd with
  | empty h hcount => rw [hcount, List.length_nil, Nat.zero_div]
  | data h hdistance hcount hsome hin =>
    rw [Bytes.length_slice_of_le hin, Nat.mul_div_cancel _ hpos, hcount]

theorem length_bytes_of_array {a : InlineArray t} (h : array? e t field = .ok a) :
    a.bytes.length ≤ e.length := by
  have hregion : arrayRegion e field t.size = .ok a.bytes := (describes_of_array h).region_eq
  exact Nat.le_trans (Nat.le_add_left _ _) (length_arrayRegion hregion)

end

end Container

open Container in
/-- **Container reads are total and exact.**  Whatever the bytes of an entry and the field are, no
container read faults.  An array, a string and a sub-stream are read, or refused, exactly as the
rules say; a refusal for want of bytes counts the bytes that are there, and they are too few; and an
array that is read has the number of elements of its header, found one by one or by index, and none
beyond. -/
theorem containers_withstand_any_bytes (e : Bytes) (field : Nat) (hroom : e.length ≤ maxCapacity) :
    (∀ t, arrayAt e t field = .of (array? e t field) ∧
      ∀ r, Describes e field t.size r ↔ (array? e t field).map InlineArray.bytes = r) ∧
    (stringAt e field = .of (string? e field) ∧
      ∀ r, SpellsText e field r ↔ string? e field = r) ∧
    (subStreamAt e field = .of (subStream? e field) ∧
      ∀ r, HoldsStream e field r ↔ subStream? e field = r) ∧
    (∀ err, (∃ t, array? e t field = .error err) ∨ string? e field = .error err ∨
      subStream? e field = .error err → err.Short e.length) ∧
    (∀ t a, array? e t field = .ok a →
      a.lengthAt = .ok (e.word (field + 4)).toNat ∧
      ∃ items, a.itemsAt = .ok items ∧ items.length = (e.word (field + 4)).toNat ∧
        ∀ i, a.getAt i = .ok items[i]?) := by
  refine ⟨fun t => ⟨arrayAt_ok hroom t, array_eq_iff e field t⟩,
    ⟨stringAt_ok hroom, spellsText_iff e field⟩,
    ⟨subStreamAt_ok hroom, holdsStream_iff e field⟩, ?_, ?_⟩
  · rintro err (⟨t, h⟩ | h | h)
    · exact (describes_of_array_error h).short t.size_pos
    · exact ((spellsText_iff e field _).mpr h).short
    · exact ((holdsStream_iff e field _).mpr h).short
  · intro t a h
    have hcount := length_of_array h
    have hbytes := Nat.le_trans (length_bytes_of_array h) (room_of_capacity hroom)
    refine ⟨hcount ▸ a.lengthAt_ok, a.toList, a.itemsAt_ok, a.length_toList.trans hcount, ?_⟩
    intro i
    rw [InlineArray.getAt_ok hbytes, InlineArray.getElem?_toList]

/-- two elements of two bytes are there, two of eight bytes are not, whatever the header says -/
theorem array_of_two_bytes_each :
    let e : Bytes := [8, 0, 0, 0, 2, 0, 0, 0, 1, 0, 2, 1]
    e.length ≤ maxCapacity ∧
      Container.arrayAt e .u64 0 = .of (.error (.truncated 8 16 4)) ∧
      ∃ items, (⟨[1, 0, 2, 1]⟩ : InlineArray .u16).itemsAt = .ok items ∧ items.length = 2 := by
  intro e
  have hroom : e.length ≤ maxCapacity := by decide
  obtain ⟨harray, -, -, -, hitems⟩ := containers_withstand_any_bytes e 0 hroom
  obtain ⟨-, items, hread, hlen, -⟩ := hitems .u16 ⟨[1, 0, 2, 1]⟩ rfl
  exact ⟨hroom, (harray .u64).1, items, hread, hlen⟩

end TaggedStream
