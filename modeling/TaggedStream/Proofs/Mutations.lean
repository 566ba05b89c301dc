import TaggedStream.Proofs.Buffers

/-!
# Mutations with every sum checked

The operations that change an entry once more, step by step: a range is checked before it is
touched, a sum or product of sizes that is no size is a fault, bytes are copied over as many
others.  What the operations do is the same, since a place that is no size lies outside the entry
anyway, and a header that lies in the entry says nothing that is no size.

* `Entry.changeAt`                  bytes in the place of a range, once it is checked
* `Entry.writeAt`, `overwriteAt`, `fillAt`   writes at an offset
* `Container.patchArrayAt`, `setArrayAt`, `fillDataAt`, `storeSubStreamAt`   the containers
* `Entry.performAt`                 an operation in these terms
* `Entry.performAt_eq`              **it is the operation**
-/

namespace TaggedStream

/-- a product of sizes -/
def mulSize (a b : Nat) : Except Fault Nat :=
  if a * b ≤ maxSize then .ok (a * b) else .error .overflow

theorem mulSize_ok {a b : Nat} (h : a * b ≤ maxSize) : mulSize a b = .ok (a * b) := if_pos h

namespace EntryM

variable {α β : Type} {e : Bytes}

/-- steps that do the same, then steps that do the same where the first ones succeed -/
theorem bind_congr {m m' : EntryM α} {k k' : α → EntryM β} (h : m e = m' e)
    (hk : ∀ a e', m' e = .ok a e' → k a e' = k' a e') : (m >>= k) e = (m' >>= k') e := by
  cases hm : m' e with
  | ok a e' => rw [bind_of_ok (h.trans hm), bind_of_ok hm, hk a e' hm]
  | error f e' => rw [bind_of_error (h.trans hm), bind_of_error hm]

theorem query_ok {f : Bytes → Except Fault α} {a : α} (h : f e = .ok a) :
    query f e = .ok a e := by
  simp only [query, h]

theorem update_congr {f g : Bytes → Except Fault Bytes} (h : f e = g e) :
    update f e = update g e := by
  simp only [update, h]

theorem update_ok {f : Bytes → Except Fault Bytes} {e' : Bytes} (h : update f e = .ok () e') :
    f e = .ok e' := by
  unfold update at h
  split at h
  · rename_i hf
    cases h
    exact hf
  · cases h

theorem update_error {f : Bytes → Except Fault Bytes} {fault : Fault} {e' : Bytes}
    (h : update f e = .error fault e') : e' = e := by
  unfold update at h
  split at h
  · cases h
  · cases h
    rfl

end EntryM

namespace Entry

/-! ## writes at an offset -/

def readWordAt (e : Bytes) (offset : Nat) : Except Fault UInt32 := do
  let v ← (Buffer.entry e).readAt .u32 offset
  return UInt32.ofBitVec v

/-- bytes in the place of a range, made from those that are there -/
def changeAt (offset width : Nat) (change : Bytes → Except Fault Bytes) (e : Bytes) :
    Except Fault Bytes := do
  let part ← (Buffer.entry e).part offset width
  let next ← change part
  return e.splice offset next

/-- bytes are copied over as many others -/
def copyOver (data part : Bytes) : Except Fault Bytes := do
  demand (data.length = part.length)
  return data

def writeAt (offset : Nat) (v : Scalar) : EntryM Unit :=
  EntryM.update (changeAt offset v.type.size (v.type.write v.value))

def writeWordAt (offset : Nat) (w : UInt32) : EntryM Unit := writeAt offset ⟨.u32, w.toBitVec⟩

def overwriteAt (offset : Nat) (data : Bytes) : EntryM Unit :=
  EntryM.update (changeAt offset data.length (copyOver data))

def fillAt (offset len : Nat) (x : UInt8) : EntryM Unit :=
  EntryM.update (changeAt offset len fun part => .ok (List.replicate part.length x))

section
variable {e e' : Bytes} {offset width : Nat} {change : Bytes → Except Fault Bytes}

theorem changeAt_eq (hroom : e.length ≤ maxSize) (offset width : Nat)
    (change : Bytes → Except Fault Bytes) :
    changeAt offset width change e = (do
      let part ← region e offset width
      let next ← change part
      return e.splice offset next) := by
  have hpart : (Buffer.entry e).part offset width = region e offset width :=
    Buffer.part_eq (b := .entry e) hroom offset width
  rw [changeAt, hpart]

theorem changeAt_of_ok (hroom : e.length ≤ maxSize) {next : Bytes}
    (h : offset + width ≤ e.length → change (e.slice offset width) = .ok next) :
    changeAt offset width change e =
      if offset + width ≤ e.length then .ok (e.splice offset next)
      else .error (.entryBounds offset width e.length) := by
  rw [changeAt_eq hroom, region]
  by_cases hin : offset + width ≤ e.length
  · rw [if_pos hin, if_pos hin, ok_bind, h hin, ok_bind]
    rfl
  · rw [if_neg hin, if_neg hin]
    rfl

variable (hroom : e.length ≤ maxSize)
include hroom

theorem readWordAt_eq (offset : Nat) : readWordAt e offset = readWord e offset := by
  rw [readWordAt, Buffer.readAt_eq (b := .entry e) hroom, readWord]
  by_cases h : offset + 4 ≤ e.length
  · rw [if_pos h, Buffer.read_of_le (b := .entry e) h]
    rfl
  · rw [if_neg h, Buffer.read_of_lt (b := .entry e) (Nat.lt_of_not_le h)]
    rfl

theorem writeAt_eq (offset : Nat) (v : Scalar) :
    writeAt offset v e = EntryM.update (write · v.type offset v.value) e := by
  refine EntryM.update_congr ?_
  have hlen := v.type.length_encode v.value
  rw [write, overwrite, hlen]
  exact changeAt_of_ok hroom fun h =>
    ScalarType.write_of_length (Bytes.length_slice_of_le h) v.value

theorem writeWordAt_eq (offset : Nat) (w : UInt32) :
    writeWordAt offset w e = EntryM.update (writeWord · offset w) e :=
  writeAt_eq hroom offset ⟨.u32, w.toBitVec⟩

theorem overwriteAt_eq (offset : Nat) (data : Bytes) :
    overwriteAt offset data e = EntryM.update (overwrite · offset data) e := by
  refine EntryM.update_congr ?_
  refine changeAt_of_ok hroom fun h => ?_
  rw [copyOver, demand_ok (Bytes.length_slice_of_le h).symm]
  rfl

theorem fillAt_eq (offset len : Nat) (x : UInt8) :
    fillAt offset len x e = EntryM.update (fill · offset len x) e := by
  refine EntryM.update_congr ?_
  refine changeAt_of_ok hroom fun h => ?_
  rw [Bytes.length_slice_of_le h]

omit hroom in
/-- a word that was written lies in the entry -/
theorem of_writeWord_ok {w : UInt32} (h : EntryM.update (writeWord · offset w) e = .ok () e') :
    offset + 4 ≤ e.length ∧ e'.length = e.length := by
  have hput := EntryM.update_ok h
  refine ⟨?_, length_of_overwrite hput⟩
  rw [writeWord, overwrite, Bytes.length_ofWord] at hput
  split at hput
  · assumption
  · cases hput

/-- words after one another: each sum is a size where the word before lies in the entry -/
theorem writeWordAt_bind {β : Type} {w : UInt32} {k k' : EntryM β}
    (h : ∀ e' : Bytes, offset + 4 ≤ e.length → e'.length = e.length → k e' = k' e') :
    (do writeWordAt offset w; k) e = (do EntryM.update (writeWord · offset w); k') e := by
  refine EntryM.bind_congr (writeWordAt_eq hroom offset w) fun _ e' hok => ?_
  obtain ⟨hin, hlen⟩ := of_writeWord_ok hok
  exact h e' hin hlen

end
end Entry

/-! ## containers -/

theorem Bytes.splice_slice_splice {e data : Bytes} {start len offset : Nat}
    (hin : start + len ≤ e.length) (hdata : offset + data.length ≤ len) :
    e.splice start ((e.slice start len).splice offset data) = e.splice (start + offset) data := by
  have hslice : (e.slice start len).length = len := length_slice_of_le hin
  have hpart : offset + data.length ≤ (e.slice start len).length := by rwa [hslice]
  have hlen : ((e.slice start len).splice offset data).length = len :=
    (length_splice hpart).trans hslice
  apply List.ext_getElem?
  intro j
  rw [getElem?_splice (by rwa [hlen]), hlen, getElem?_splice hpart, getElem?_slice,
    getElem?_splice (by omega)]
  by_cases hj : start ≤ j ∧ j < start + len
  · have hsub : start + (j - start) = j := by omega
    rw [if_pos hj, if_pos (show j - start < len by omega), hsub]
    by_cases hd : offset ≤ j - start ∧ j - start < offset + data.length
    · rw [if_pos hd, if_pos (by omega), Nat.sub_sub]
    · rw [if_neg hd, if_neg (by omega)]
  · rw [if_neg hj, if_neg (by omega)]

namespace Container

/-- where the data described at `field` lie -/
def dataRangeAt (field elementSize : Nat) (e : Bytes) : Except Fault (Nat × Nat) := do
  let distance ← Entry.readWordAt e field
  let second ← addSize field 4
  let count ← Entry.readWordAt e second
  let start ← addSize field distance.toNat
  let len ← mulSize count.toNat elementSize
  return (start, len)

def patchArrayAt (field data : Nat) (count : UInt32) : EntryM Unit :=
  if data < field then
    throw .arrayBeforeHeader
  else do
    Entry.writeWordAt field (UInt32.ofNat (data - field))
    let second ← EntryM.query fun _ => addSize field 4
    Entry.writeWordAt second count

def patchSubStreamAt (field data : Nat) (size : UInt32) : EntryM Unit := do
  let header ← EntryM.query fun _ => addSize field 12
  patchArrayAt header data size

/-- where an element starts and what is there, its start and its end computed as sizes -/
def elementPlace? (index size : Nat) (data : Bytes) : Option (Nat × Bytes) := do
  let start ← mulSize? index size
  let next ← addSize? index 1
  let stop ← mulSize? next size
  let part ← range? data start stop
  return (start, part)

def putElement (index : Nat) (v : Scalar) (data : Bytes) : Except Fault Bytes :=
  match elementPlace? index v.type.size data with
  | some (start, part) => (v.type.write v.value part).map (data.splice start)
  | none => .error .outOfRange

def setArrayAt (field index : Nat) (v : Scalar) : EntryM Unit :=
  EntryM.update fun e => do
    let (start, len) ← dataRangeAt field v.type.size e
    Entry.changeAt start len (putElement index v) e

/-- bytes that have to be as many as those they replace -/
def replaceAll (bytes : Bytes) (mismatch : Fault) (data : Bytes) : Except Fault Bytes :=
  if data.length = bytes.length then Entry.copyOver bytes data else .error mismatch

def fillDataAt (field : Nat) (bytes : Bytes) (mismatch : Fault) : EntryM Unit :=
  EntryM.update fun e => do
    let (start, len) ← dataRangeAt field 1 e
    Entry.changeAt start len (replaceAll bytes mismatch) e

def storeSubStreamAt (field : Nat) (source : Content) : EntryM Unit :=
  if source.isEmpty then pure ()
  else match source.schema with
    | none => pure ()
    | some schema => do
      Entry.writeWordAt field schema.kind.number
      let second ← EntryM.query fun _ => addSize field 4
      Entry.writeWordAt second schema.id
      let third ← EntryM.query fun _ => addSize field 8
      Entry.writeWordAt third source.count
      let header ← EntryM.query fun _ => addSize field 12
      fillDataAt header source.body .subStreamSize

section
variable {e : Bytes} {field : Nat}

theorem bind_addSize {α : Type} {a b : Nat} (h : a + b ≤ maxSize) (k : Nat → EntryM α) :
    (do
      let sum ← EntryM.query fun _ => addSize a b
      k sum) e = k (a + b) e :=
  EntryM.bind_of_ok (EntryM.query_ok (addSize_ok h))

theorem eq_of_addSize? {a b n : Nat} (h : addSize? a b = some n) : n = a + b := by
  unfold addSize? at h
  split at h
  · cases h
    rfl
  · cases h

theorem eq_of_mulSize? {a b n : Nat} (h : mulSize? a b = some n) : n = a * b := by
  unfold mulSize? at h
  split at h
  · cases h
    rfl
  · cases h

theorem le_of_range? {b part : Bytes} {start stop : Nat} (h : range? b start stop = some part) :
    stop ≤ b.length := by
  unfold range? at h
  split at h
  · rename_i hin
    exact hin.2
  · cases h

/-- an element whose end is no size lies beyond the data -/
theorem elementPlace?_eq {data : Bytes} (hroom : data.length ≤ maxSize) {size : Nat}
    (hpos : 0 < size) (index : Nat) :
    elementPlace? index size data =
      if (index + 1) * size ≤ data.length then
        some (index * size, data.slice (index * size) size)
      else none := by
  have hnext : (index + 1) * size = index * size + size := Nat.succ_mul _ _
  have hindex : index + 1 ≤ (index + 1) * size := Nat.le_mul_of_pos_right _ hpos
  by_cases h : (index + 1) * size ≤ data.length
  · have hrange : range? data (index * size) ((index + 1) * size)
        = some (data.slice (index * size) size) := by
      rw [range?, if_pos ⟨by omega, h⟩, hnext, Nat.add_sub_cancel_left]
    have hstart : mulSize? index size = some (index * size) := if_pos (by omega)
    have hsum : addSize? index 1 = some (index + 1) := if_pos (by omega)
    have hstop : mulSize? (index + 1) size = some ((index + 1) * size) := if_pos (by omega)
    rw [if_pos h]
    simp only [elementPlace?, hstart, hsum, hstop, hrange, Option.bind_eq_bind, Option.bind_some,
      Option.pure_def]
  · rw [if_neg h]
    refine Option.eq_none_iff_forall_ne_some.mpr fun found hfound => h ?_
    simp only [elementPlace?, Option.bind_eq_bind, Option.bind_eq_some_iff] at hfound
    obtain ⟨start, -, next, hsum, stop, hstop, part, hrange, -⟩ := hfound
    rw [← eq_of_addSize? hsum, ← eq_of_mulSize? hstop]
    exact le_of_range? hrange

theorem putElement_eq {data : Bytes} (hroom : data.length ≤ maxSize) (index : Nat) (v : Scalar) :
    putElement index v data =
      if (index + 1) * v.type.size ≤ data.length then
        .ok (data.splice (index * v.type.size) v.bytes)
      else .error .outOfRange := by
  have hnext : (index + 1) * v.type.size = index * v.type.size + v.type.size := Nat.succ_mul _ _
  rw [putElement, elementPlace?_eq hroom v.type.size_pos]
  by_cases h : (index + 1) * v.type.size ≤ data.length
  · have hlen : (data.slice (index * v.type.size) v.type.size).length = v.type.size :=
      Bytes.length_slice_of_le (hnext ▸ h)
    rw [if_pos h, if_pos h]
    simp only [ScalarType.write_of_length hlen]
    rfl
  · rw [if_neg h, if_neg h]

variable (hroom : e.length ≤ maxCapacity)
include hroom

/-- a header that lies in the entry says nothing that is no size -/
theorem dataRangeAt_eq {size : Nat} (hsize : size ≤ maxWord) :
    dataRangeAt field size e = dataRange field size e := by
  have hmax := room_of_capacity hroom
  rw [dataRangeAt, dataRange, Entry.readWordAt_eq hmax]
  by_cases h : field + 4 ≤ e.length
  · have hfirst : Entry.readWord e field = .ok (e.word field) := if_pos h
    rw [hfirst, ok_bind, ok_bind, addSize_ok (Nat.le_trans h hmax), ok_bind,
      Entry.readWordAt_eq hmax]
    cases Entry.readWord e (field + 4) with
    | error f => rfl
    | ok count =>
      have hfar : field + (e.word field).toNat ≤ maxSize :=
        add_distance_le (Nat.le_trans (Nat.le_add_right _ _) (Nat.le_trans h hroom)) _
      rw [ok_bind, ok_bind, addSize_ok hfar, ok_bind, mulSize_ok (mul_count_le hsize count)]
      rfl
  · have hfirst : Entry.readWord e field = .error (.entryBounds field 4 e.length) := if_neg h
    rw [hfirst]
    rfl

/-- a change of the data described at `field` -/
theorem change_described {size : Nat} {suits : Nat → Prop} [DecidablePred suits]
    {place : Nat → Write} {mismatch : Fault} {change : Bytes → Except Fault Bytes}
    (hsize : size ≤ maxWord)
    (h : ∀ start len, start + len ≤ e.length → (change (e.slice start len)).map (e.splice start)
      = if suits len then .ok ((place start).put e) else .error mismatch) :
    EntryM.update (fun e => do
        let (start, len) ← dataRangeAt field size e
        Entry.changeAt start len change e) e
      = writeDescribed field size suits place mismatch e := by
  refine EntryM.update_congr ?_
  rw [dataRangeAt_eq hroom hsize]
  cases dataRange field size e with
  | error f => rfl
  | ok range =>
    obtain ⟨start, len⟩ := range
    simp only [ok_bind, Entry.changeAt_eq (room_of_capacity hroom), Entry.region]
    by_cases hin : start + len ≤ e.length
    · have hchange := h start len hin
      rw [if_pos hin, ok_bind, ok_bind]
      refine Eq.trans ?_ hchange
      cases change (e.slice start len) <;> rfl
    · rw [if_neg hin]
      rfl

theorem setArrayAt_eq (index : Nat) (v : Scalar) :
    setArrayAt field index v e = setArray field index v e := by
  have hmax := room_of_capacity hroom
  have hsize : v.type.size ≤ maxWord := by cases v.type <;> decide
  rw [setArray_eq]
  refine change_described hroom hsize fun start len hin => ?_
  have hslice : (e.slice start len).length = len := Bytes.length_slice_of_le hin
  rw [putElement_eq (by omega), hslice]
  by_cases h : (index + 1) * v.type.size ≤ len
  · have hv : v.bytes.length = v.type.size := v.type.length_encode v.value
    rw [if_pos h, if_pos h]
    rw [Nat.succ_mul, ← hv] at h
    exact congrArg Except.ok (hv ▸ Bytes.splice_slice_splice hin h)
  · rw [if_neg h, if_neg h]
    rfl

theorem fillDataAt_eq (bytes : Bytes) (mismatch : Fault) :
    fillDataAt field bytes mismatch e = fillData field bytes mismatch e := by
  have hsize : 1 ≤ maxWord := by decide
  rw [fillData_eq]
  refine change_described hroom hsize fun start len hin => ?_
  rw [replaceAll, Bytes.length_slice_of_le hin]
  by_cases h : len = bytes.length
  · have hcopy : Entry.copyOver bytes (e.slice start len) = .ok bytes := by
      rw [Entry.copyOver, demand_ok (h.symm.trans (Bytes.length_slice_of_le hin).symm)]
      rfl
    rw [if_pos h, if_pos h, hcopy]
    rfl
  · rw [if_neg h, if_neg h]
    rfl

theorem patchArrayAt_eq (data : Nat) (count : UInt32) :
    patchArrayAt field data count e = patchArray field data count e := by
  have hmax := room_of_capacity hroom
  unfold patchArrayAt patchArray
  by_cases h : data < field
  · rw [if_pos h, if_pos h]
  · rw [if_neg h, if_neg h]
    refine Entry.writeWordAt_bind hmax fun e' hin hlen => ?_
    rw [bind_addSize (Nat.le_trans hin hmax)]
    exact Entry.writeWordAt_eq (hlen.symm ▸ hmax) _ _

theorem patchSubStreamAt_eq (data : Nat) (size : UInt32) :
    patchSubStreamAt field data size e = patchSubStream field data size e := by
  unfold patchSubStreamAt patchSubStream
  by_cases h : maxSize < field + 12
  · have hsum : EntryM.query (fun _ => addSize field 12) e = .error .overflow e := by
      simp only [EntryM.query, addSize, if_neg (Nat.not_le.mpr h)]
    rw [if_pos h, EntryM.bind_of_error hsum]
    rfl
  · rw [if_neg h, bind_addSize (Nat.le_of_not_lt h)]
    exact patchArrayAt_eq hroom data size

theorem storeSubStreamAt_eq (source : Content) :
    storeSubStreamAt field source e = storeSubStream field source e := by
  have hmax := room_of_capacity hroom
  unfold storeSubStreamAt storeSubStream
  by_cases hempty : source.isEmpty = true
  · rw [if_pos hempty, if_pos hempty]
  rw [if_neg hempty, if_neg hempty]
  cases source.schema with
  | none => rfl
  | some schema =>
    refine Entry.writeWordAt_bind hmax fun e' hin hlen => ?_
    have hmax' : e'.length ≤ maxSize := hlen.symm ▸ hmax
    rw [bind_addSize (by omega)]
    refine Entry.writeWordAt_bind hmax' fun e'' hin' hlen' => ?_
    have hmax'' : e''.length ≤ maxSize := hlen'.symm ▸ hmax'
    rw [bind_addSize (by omega)]
    refine Entry.writeWordAt_bind hmax'' fun e''' hin'' hlen'' => ?_
    rw [bind_addSize (by omega)]
    exact fillDataAt_eq (by omega) _ _

end
end Container

/-! ## operations -/

namespace Entry

/-- an operation; those that only read are as they were -/
def performAt (resolve : Resolver) (e : Bytes) : Op → Result
  | .write offset v => acting e (writeAt offset v)
  | .overwrite offset data => acting e (overwriteAt offset data)
  | .fill offset len value => acting e (fillAt offset len value)
  | .patchArray field data count => acting e (Container.patchArrayAt field data count)
  | .patchSubStream field data size => acting e (Container.patchSubStreamAt field data size)
  | .setArray field index v => acting e (Container.setArrayAt field index v)
  | .writeString field s =>
    acting e (Container.fillDataAt field (Text.encode s) .stringLength)
  | .storeSubStream field source => acting e (Container.storeSubStreamAt field source)
  | op => perform resolve e op

theorem acting_congr {m m' : EntryM Unit} {e : Bytes} (h : m e = m' e) :
    acting e m = acting e m' := by
  rw [acting, acting, h]

/-- **The checks change nothing** in an entry of a size that one allocation can have. -/
theorem performAt_eq (resolve : Resolver) {e : Bytes} (hroom : e.length ≤ maxCapacity) (op : Op) :
    performAt resolve e op = perform resolve e op := by
  have hmax := Container.room_of_capacity hroom
  cases op with
  | write offset v => exact acting_congr (writeAt_eq hmax offset v)
  | overwrite offset data => exact acting_congr (overwriteAt_eq hmax offset data)
  | fill offset len value => exact acting_congr (fillAt_eq hmax offset len value)
  | patchArray field data count => exact acting_congr (Container.patchArrayAt_eq hroom data count)
  | patchSubStream field data size =>
    exact acting_congr (Container.patchSubStreamAt_eq hroom data size)
  | setArray field index v => exact acting_congr (Container.setArrayAt_eq hroom index v)
  | writeString field s => exact acting_congr (Container.fillDataAt_eq hroom _ _)
  | storeSubStream field source => exact acting_congr (Container.storeSubStreamAt_eq hroom source)
  | _ => rfl

end Entry
end TaggedStream
