import Mathlib.Data.Nat.Digits.Defs
import TaggedStream.Proofs.Reads
import TaggedStream.Proofs.Writes

/-!
# Scalars in buffers

A storage and an entry are read and written in the same way: the range of the scalar is checked
against the bytes in use, then its bytes are taken or replaced.  What holds of one access follows
from what holds of ranges of bytes, for all ten types and for types that overlap.

* `Buffer`                       a storage or an entry; `read`, `write` are those of either
* `Buffer.part`, `readAt`, `writeAt`   the same access with every sum and range checked
* `Buffer.read_eq`, `write_eq`   an access in terms of the bytes
* `Buffer.bytesFrom`             the bytes that a scalar covers, read one by one
* `scalar_access_laws`           **reads and writes of scalars, whatever the type and the buffer**
-/

namespace TaggedStream

/-! ## ranges of bytes -/

namespace Bytes

theorem splice_slice_self {b : Bytes} {offset len : Nat} (h : offset + len ≤ b.length) :
    b.splice offset (b.slice offset len) = b := by
  rw [splice, length_slice_of_le h, slice, List.append_assoc, ← List.drop_drop,
    List.take_append_drop, List.take_append_drop]

/-- writes to ranges without a common byte can be made in either order -/
theorem splice_splice_of_apart {b data data' : Bytes} {offset offset' : Nat}
    (h : offset + data.length ≤ b.length) (h' : offset' + data'.length ≤ b.length)
    (hapart : Span.Apart ⟨offset, data.length⟩ ⟨offset', data'.length⟩) :
    (b.splice offset data).splice offset' data' = (b.splice offset' data').splice offset data := by
  apply List.ext_getElem?
  intro j
  rw [getElem?_splice (length_splice h ▸ h'), getElem?_splice h,
    getElem?_splice (length_splice h' ▸ h), getElem?_splice h']
  by_cases hj : offset ≤ j ∧ j < offset + data.length
  · have hout : ¬ (offset' ≤ j ∧ j < offset' + data'.length) := hapart j hj
    rw [if_neg hout, if_pos hj, if_pos hj]
  · rw [if_neg hj, if_neg hj]

/-- a number is the sum of its digits in base 256 -/
theorem toNat_eq_ofDigits (b : Bytes) : b.toNat = Nat.ofDigits 256 (b.map UInt8.toNat) := by
  induction b with
  | nil => rfl
  | cons x rest ih =>
    rw [toNat, ih, List.map_cons, Nat.ofDigits_cons]

end Bytes

/-- a scalar over bytes of its own length takes the place of all of them -/
theorem ScalarType.write_of_length {t : ScalarType} {b : Bytes} (h : b.length = t.size)
    (v : t.Value) : t.write v b = .ok (t.encode v) := by
  have hall : b.drop (0 + (t.encode v).length) = [] :=
    List.drop_of_length_le (by rw [t.length_encode]; omega)
  rw [write, if_pos (Nat.le_of_eq h.symm), Bytes.splice, hall, List.take_zero, List.nil_append,
    List.append_nil]

/-! ## buffers -/

inductive Buffer where
  | storage (s : Storage)
  | entry (e : Bytes)

namespace Buffer

def bytes : Buffer → Bytes
  | storage s => s.bytes
  | entry e => e

def length (b : Buffer) : Nat := b.bytes.length

/-- other bytes in the same buffer -/
def withBytes : Buffer → Bytes → Buffer
  | storage s, bytes => storage { s with bytes }
  | entry _, bytes => entry bytes

/-- the fault of an access that is not in the bytes -/
def outside (b : Buffer) (offset width : Nat) : Fault :=
  match b with
  | storage _ => .storageBounds offset width b.length
  | entry _ => .entryBounds offset width b.length

def read (b : Buffer) (t : ScalarType) (offset : Nat) : Except Fault t.Value :=
  match b with
  | storage s => s.read t offset
  | entry e => Entry.read e t offset

def write (b : Buffer) (t : ScalarType) (offset : Nat) (v : t.Value) : Except Fault Buffer :=
  match b with
  | storage s => (s.write t offset v).map storage
  | entry e => (Entry.write e t offset v).map entry

/-! ## the same with every sum and range checked -/

/-- whether a range lies in `length` bytes; one whose end is no size does not -/
def admits (length offset width : Nat) : Bool :=
  match addSize? offset width with
  | some stop => decide (stop ≤ length)
  | none => false

/-- the bytes of a range; its end is computed to check it and once more to take them -/
def part (b : Buffer) (offset width : Nat) : Except Fault Bytes :=
  if admits b.length offset width then do
    let stop ← addSize offset width
    range b.bytes offset stop
  else
    .error (b.outside offset width)

def readAt (b : Buffer) (t : ScalarType) (offset : Nat) : Except Fault t.Value := do
  let part ← b.part offset t.size
  t.read part

def writeAt (b : Buffer) (t : ScalarType) (offset : Nat) (v : t.Value) : Except Fault Buffer := do
  let part ← b.part offset t.size
  let written ← t.write v part
  return b.withBytes (b.bytes.splice offset written)

section
variable {b b' : Buffer} {t t' : ScalarType} {offset offset' width : Nat} {v : t.Value}

theorem bytes_withBytes (b : Buffer) (bytes : Bytes) : (b.withBytes bytes).bytes = bytes := by
  cases b <;> rfl

theorem withBytes_bytes (b : Buffer) : b.withBytes b.bytes = b := by
  cases b <;> rfl

theorem withBytes_withBytes (b : Buffer) (bytes bytes' : Bytes) :
    (b.withBytes bytes).withBytes bytes' = b.withBytes bytes' := by
  cases b <;> rfl

theorem outside_withBytes {bytes : Bytes} (h : bytes.length = b.length) (offset width : Nat) :
    (b.withBytes bytes).outside offset width = b.outside offset width := by
  cases b with
  | storage s => exact congrArg (Fault.storageBounds offset width) h
  | entry e => exact congrArg (Fault.entryBounds offset width) h

theorem read_eq (b : Buffer) (t : ScalarType) (offset : Nat) :
    b.read t offset =
      if offset + t.size ≤ b.length then .ok (t.decode (b.bytes.slice offset t.size))
      else .error (b.outside offset t.size) := by
  cases b with
  | storage s =>
    show (if offset + t.size ≤ s.length then _ else _ : Except Fault Bytes).map t.decode = _
    rw [apply_ite (Except.map t.decode)]
    rfl
  | entry e =>
    show (if offset + t.size ≤ e.length then _ else _ : Except Fault Bytes).map t.decode = _
    rw [apply_ite (Except.map t.decode)]
    rfl

theorem write_eq (b : Buffer) (t : ScalarType) (offset : Nat) (v : t.Value) :
    b.write t offset v =
      if offset + t.size ≤ b.length then
        .ok (b.withBytes (b.bytes.splice offset (t.encode v)))
      else .error (b.outside offset t.size) := by
  have hlen := t.length_encode v
  cases b with
  | storage s =>
    show (s.overwrite offset (t.encode v)).map storage = _
    rw [Storage.overwrite, hlen, apply_ite (Except.map storage)]
    rfl
  | entry e =>
    show (Entry.overwrite e offset (t.encode v)).map entry = _
    rw [Entry.overwrite, hlen, apply_ite (Except.map entry)]
    rfl

/-! ### no sum and no range fails where the access is in the bytes -/

theorem admits_eq {length : Nat} (hroom : length ≤ maxSize) (offset width : Nat) :
    admits length offset width = decide (offset + width ≤ length) := by
  rw [admits, addSize?]
  by_cases h : offset + width ≤ maxSize
  · rw [if_pos h]
  · rw [if_neg h]
    exact (decide_eq_false fun hin => h (Nat.le_trans hin hroom)).symm

theorem part_eq (hroom : b.length ≤ maxSize) (offset width : Nat) :
    b.part offset width =
      if offset + width ≤ b.length then .ok (b.bytes.slice offset width)
      else .error (b.outside offset width) := by
  rw [part, admits_eq hroom]
  by_cases h : offset + width ≤ b.length
  · have hstop : offset + width ≤ b.bytes.length := h
    rw [decide_eq_true h, if_pos rfl, if_pos h, addSize_ok (Nat.le_trans h hroom), ok_bind,
      range_ok (Nat.le_add_right _ _) hstop, Nat.add_sub_cancel_left]
  · rw [decide_eq_false h, if_neg Bool.false_ne_true, if_neg h]

theorem readAt_eq (hroom : b.length ≤ maxSize) (t : ScalarType) (offset : Nat) :
    b.readAt t offset = b.read t offset := by
  rw [readAt, part_eq hroom, read_eq]
  by_cases h : offset + t.size ≤ b.length
  · have hlen : (b.bytes.slice offset t.size).length = t.size := Bytes.length_slice_of_le h
    rw [if_pos h, if_pos h, ok_bind, InlineArray.read_of_length hlen]
  · rw [if_neg h, if_neg h]
    rfl

theorem writeAt_eq (hroom : b.length ≤ maxSize) (t : ScalarType) (offset : Nat) (v : t.Value) :
    b.writeAt t offset v = b.write t offset v := by
  rw [writeAt, part_eq hroom, write_eq]
  by_cases h : offset + t.size ≤ b.length
  · have hlen : (b.bytes.slice offset t.size).length = t.size := Bytes.length_slice_of_le h
    rw [if_pos h, if_pos h, ok_bind, ScalarType.write_of_length hlen]
    rfl
  · rw [if_neg h, if_neg h]
    rfl

/-! ### laws -/

theorem read_of_le (h : offset + t.size ≤ b.length) :
    b.read t offset = .ok (t.decode (b.bytes.slice offset t.size)) := by
  rw [read_eq, if_pos h]

theorem read_of_lt (h : b.length < offset + t.size) :
    b.read t offset = .error (b.outside offset t.size) := by
  rw [read_eq, if_neg (Nat.not_le.mpr h)]

theorem write_of_le (h : offset + t.size ≤ b.length) (v : t.Value) :
    b.write t offset v = .ok (b.withBytes (b.bytes.splice offset (t.encode v))) := by
  rw [write_eq, if_pos h]

theorem write_of_lt (h : b.length < offset + t.size) (v : t.Value) :
    b.write t offset v = .error (b.outside offset t.size) := by
  rw [write_eq, if_neg (Nat.not_le.mpr h)]

theorem length_withBytes (b : Buffer) (bytes : Bytes) :
    (b.withBytes bytes).length = bytes.length := by
  rw [length, bytes_withBytes]

theorem write_ok_iff : b.write t offset v = .ok b' ↔
    offset + t.size ≤ b.length ∧ b' = b.withBytes (b.bytes.splice offset (t.encode v)) := by
  rw [write_eq]
  by_cases h : offset + t.size ≤ b.length
  · rw [if_pos h, Except.ok.injEq]
    exact ⟨fun heq => ⟨h, heq.symm⟩, fun heq => heq.2.symm⟩
  · rw [if_neg h]
    exact ⟨fun heq => (nomatch heq), fun heq => absurd heq.1 h⟩

theorem value_of_read (h : b.read t offset = .ok v) :
    offset + t.size ≤ b.length ∧ v = t.decode (b.bytes.slice offset t.size) := by
  rw [read_eq] at h
  split at h
  · cases h
    exact ⟨by assumption, rfl⟩
  · cases h

/-- writing back what was read changes nothing -/
theorem write_of_read (h : b.read t offset = .ok v) : b.write t offset v = .ok b := by
  obtain ⟨hle, rfl⟩ := value_of_read h
  rw [write_of_le hle, t.encode_decode (Bytes.length_slice_of_le hle),
    Bytes.splice_slice_self hle, withBytes_bytes]

section
variable (h : b.write t offset v = .ok b')
include h

theorem length_of_write : b'.length = b.length := by
  obtain ⟨hle, rfl⟩ := write_ok_iff.mp h
  rw [length_withBytes, Bytes.length_splice (by rwa [t.length_encode])]
  rfl

theorem outside_of_write (offset' width : Nat) :
    b'.outside offset' width = b.outside offset' width := by
  have hlen := length_of_write h
  obtain ⟨-, rfl⟩ := write_ok_iff.mp h
  exact outside_withBytes (by rwa [length_withBytes] at hlen) offset' width

/-- a read finds what was written -/
theorem read_of_write : b'.read t offset = .ok v := by
  have hlen := length_of_write h
  obtain ⟨hle, rfl⟩ := write_ok_iff.mp h
  have hin : offset + (t.encode v).length ≤ b.bytes.length := by rwa [t.length_encode]
  have hslice := Bytes.slice_splice_self hin
  rw [t.length_encode] at hslice
  rw [read_of_le (hlen ▸ hle), bytes_withBytes, hslice, t.decode_encode]

/-- a read elsewhere finds what it found before, or fails as it did -/
theorem read_of_write_apart (hapart : Span.Apart ⟨offset', t'.size⟩ ⟨offset, t.size⟩) :
    b'.read t' offset' = b.read t' offset' := by
  have hlen := length_of_write h
  have houtside := outside_of_write h offset' t'.size
  obtain ⟨hle, rfl⟩ := write_ok_iff.mp h
  have hin : offset + (t.encode v).length ≤ b.bytes.length := by rwa [t.length_encode]
  rw [← t.length_encode v] at hapart
  rw [read_eq, read_eq, hlen, houtside, bytes_withBytes, Bytes.slice_splice_of_apart hin hapart]

/-- a write elsewhere can be made before it or after it -/
theorem write_of_write_apart (hapart : Span.Apart ⟨offset', t'.size⟩ ⟨offset, t.size⟩)
    (v' : t'.Value) :
    (do
      let first ← b.write t' offset' v'
      first.write t offset v) = b'.write t' offset' v' := by
  have hlen := length_of_write h
  have houtside := outside_of_write h offset' t'.size
  obtain ⟨hle, rfl⟩ := write_ok_iff.mp h
  rcases Nat.lt_or_ge b.length (offset' + t'.size) with hlt | hle'
  · rw [write_of_lt hlt, write_of_lt (hlen.symm ▸ hlt), houtside]
    rfl
  · have hin : offset + (t.encode v).length ≤ b.bytes.length := by rwa [t.length_encode]
    have hin' : offset' + (t'.encode v').length ≤ b.bytes.length := by rwa [t'.length_encode]
    have hfirst : (b.withBytes (b.bytes.splice offset' (t'.encode v'))).length = b.length := by
      rw [length_withBytes, Bytes.length_splice hin']
      rfl
    rw [← t.length_encode v, ← t'.length_encode v'] at hapart
    rw [write_of_le hle', ok_bind, write_of_le (hfirst.symm ▸ hle), write_of_le (hlen.symm ▸ hle'),
      bytes_withBytes, bytes_withBytes, withBytes_withBytes, withBytes_withBytes,
      Bytes.splice_splice_of_apart hin' hin hapart]

end

/-! ### the bytes of a scalar -/

/-- `n` bytes, read one by one -/
def bytesFrom (b : Buffer) (offset n : Nat) : Except Fault (List ScalarType.u8.Value) :=
  (List.range n).mapM fun i => b.read .u8 (offset + i)

theorem toNat_decode_byte (x : UInt8) : (ScalarType.u8.decode [x]).toNat = x.toNat :=
  Nat.mod_eq_of_lt x.toNat_lt

theorem bytesFrom_eq {n : Nat} (h : offset + n ≤ b.length) :
    b.bytesFrom offset n
      = .ok ((b.bytes.slice offset n).map fun x => ScalarType.u8.decode [x]) := by
  have hread : ∀ i ∈ List.range n, b.read .u8 (offset + i)
      = .ok (ScalarType.u8.decode (b.bytes.slice (offset + i) 1)) := by
    intro i hi
    have hlt := List.mem_range.mp hi
    exact read_of_le (show offset + i + 1 ≤ b.length by omega)
  rw [bytesFrom, mapM_ok hread]
  congr 1
  clear hread
  induction n with
  | zero => rfl
  | succ n ih =>
    have hlt : offset + n < b.bytes.length := h
    have hlast : b.bytes.slice (offset + n) 1 = [b.bytes[offset + n]] := by
      rw [Bytes.slice, List.drop_eq_getElem_cons hlt, List.take_succ_cons, List.take_zero]
    rw [List.range_succ, List.map_append, ih (by omega), Bytes.slice_add, List.map_append, hlast,
      List.map_singleton, List.map_singleton, hlast]

/-- **A scalar is the combination of its bytes**, the lowest first. -/
theorem toNat_of_read (h : b.read t offset = .ok v) :
    ∃ digits, b.bytesFrom offset t.size = .ok digits ∧
      v.toNat = Nat.ofDigits 256 (digits.map BitVec.toNat) := by
  obtain ⟨hle, rfl⟩ := value_of_read h
  refine ⟨_, bytesFrom_eq hle, ?_⟩
  have hlen : (b.bytes.slice offset t.size).length = t.size := Bytes.length_slice_of_le hle
  have hlt := Bytes.toNat_lt (b.bytes.slice offset t.size)
  rw [hlen, Nat.one_shiftLeft] at hlt
  have hdigits : (fun x => (ScalarType.u8.decode [x]).toNat) = UInt8.toNat :=
    funext toNat_decode_byte
  rw [ScalarType.decode, BitVec.toNat_ofNat, Nat.mod_eq_of_lt hlt, Bytes.toNat_eq_ofDigits,
    List.map_map, ← hdigits]
  rfl

/-- a 32-bit number that is taken without a check, or from what follows an offset -/
theorem word_of_read {w : ScalarType.u32.Value} (h : b.read .u32 offset = .ok w) :
    b.bytes.word offset = UInt32.ofBitVec w ∧
      ScalarType.u32.read (b.bytes.drop offset) = .ok w := by
  obtain ⟨hle, rfl⟩ := value_of_read h
  have hin : offset + 4 ≤ b.bytes.length := hle
  refine ⟨rfl, if_pos ?_⟩
  rw [List.length_drop]
  show 4 ≤ b.bytes.length - offset
  omega

end
end Buffer

open Buffer in
/-- **Scalars in a buffer.**  Whatever the type, the buffer and the offset are, an access fails
exactly if its range does not lie in the bytes, and then says so; that holds of the access with
every sum and range checked, since a range whose end is no size lies nowhere.  A scalar that is
read is the combination of its bytes, and writing it back changes nothing.  A scalar that was
written is read again; reads of any type elsewhere do not notice, and writes of any type elsewhere
can be made before it or after it.  A 32-bit number is the same when it is taken without a check
and when it is read from what follows the offset. -/
theorem scalar_access_laws (b : Buffer) (hroom : b.length ≤ maxSize) (t : ScalarType)
    (offset : Nat) :
    (b.readAt t offset = b.read t offset ∧
      ∀ v, b.writeAt t offset v = b.write t offset v) ∧
    (b.length < offset + t.size →
      b.read t offset = .error (b.outside offset t.size) ∧
      ∀ v, b.write t offset v = .error (b.outside offset t.size)) ∧
    (offset + t.size ≤ b.length →
      (∃ v digits, b.read t offset = .ok v ∧ b.write t offset v = .ok b ∧
        b.bytesFrom offset t.size = .ok digits ∧
        v.toNat = Nat.ofDigits 256 (digits.map BitVec.toNat)) ∧
      ∀ v, ∃ b', b.write t offset v = .ok b' ∧ b'.length = b.length ∧ b'.read t offset = .ok v ∧
        ∀ t' offset', Span.Apart ⟨offset', t'.size⟩ ⟨offset, t.size⟩ →
          b'.read t' offset' = b.read t' offset' ∧
          ∀ v', (do
            let first ← b.write t' offset' v'
            first.write t offset v) = b'.write t' offset' v') ∧
    (offset + 4 ≤ b.length → ∃ w, b.read .u32 offset = .ok w ∧
      wordAt b.bytes offset = .ok (UInt32.ofBitVec w) ∧
      ScalarType.u32.read (b.bytes.drop offset) = .ok w) := by
  refine ⟨⟨readAt_eq hroom t offset, writeAt_eq hroom t offset⟩, ?_, ?_, ?_⟩
  · exact fun hlt => ⟨read_of_lt hlt, write_of_lt hlt⟩
  · intro hle
    have hread := read_of_le hle
    obtain ⟨digits, hdigits, hvalue⟩ := toNat_of_read hread
    refine ⟨⟨_, digits, hread, write_of_read hread, hdigits, hvalue⟩, fun v => ?_⟩
    have hwrite := write_of_le hle v
    exact ⟨_, hwrite, length_of_write hwrite, read_of_write hwrite, fun t' offset' hapart =>
      ⟨read_of_write_apart hwrite hapart, write_of_write_apart hwrite hapart⟩⟩
  · intro hle
    have hread : b.read .u32 offset = _ := read_of_le hle
    obtain ⟨hword, hrest⟩ := word_of_read hread
    refine ⟨_, hread, ?_, hrest⟩
    rw [wordAt_ok hle hroom, hword]

/-- a number that is none keeps its bits between two others, and the last offset there is lies
outside -/
theorem scalar_between_two_others :
    let b : Buffer := .storage ⟨[1, 2, 3, 4, 5, 6, 7, 8], 64, 2⟩
    b.length ≤ maxSize ∧ b.readAt .u16 maxSize = .error (.storageBounds maxSize 2 8) ∧
      ∃ b', b.write .f32 2 0x7fc00001 = .ok b' ∧ b'.read .f32 2 = .ok 0x7fc00001 ∧
        b'.read .u16 0 = .ok 0x0201 ∧ b'.read .i16 6 = .ok 0x0807 := by
  intro b
  have hroom : b.length ≤ maxSize := by decide
  obtain ⟨⟨hlast, -⟩, hfail, -, -⟩ := scalar_access_laws b hroom .u16 maxSize
  obtain ⟨-, -, hin, -⟩ := scalar_access_laws b hroom .f32 2
  obtain ⟨b', hwrite, -, hread, hothers⟩ := (hin (by decide)).2 0x7fc00001
  have hbefore := (hothers .u16 0 (by decide)).1
  have hbehind := (hothers .i16 6 (by decide)).1
  exact ⟨hroom, hlast.trans (hfail (by decide)).1, b', hwrite, hread, hbefore.trans rfl,
    hbehind.trans rfl⟩

end TaggedStream
