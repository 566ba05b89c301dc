/-!
# Byte strings

A stream body, an entry and a wire image are all lists of bytes, addressed by offset.

* `Bytes.slice b offset len`      the `len` bytes of `b` from `offset` on
* `Bytes.splice b offset data`    `b` with `data` written over it from `offset` on
* `Bytes.ofNat width n`           the lowest `width` base-256 digits of `n`, lowest first
* `Bytes.toNat b`                 the number with those digits
* `Bytes.word b offset`           the 32-bit number at `offset`
* `maxSize`, `maxWord`            the largest offset, and the largest number in a header
-/

namespace TaggedStream

abbrev Bytes := List UInt8

/-- offsets and sizes are 64-bit words -/
def maxSize : Nat := 0xFFFFFFFFFFFFFFFF

/-- ids, counts and the size fields of headers are 32-bit words -/
def maxWord : Nat := 0xFFFFFFFF

namespace Bytes

/-! ## ranges -/

def slice (b : Bytes) (offset len : Nat) : Bytes := (b.drop offset).take len

def splice (b : Bytes) (offset : Nat) (data : Bytes) : Bytes :=
  b.take offset ++ data ++ b.drop (offset + data.length)

theorem length_slice (b : Bytes) (offset len : Nat) :
    (slice b offset len).length = min len (b.length - offset) := by
  simp [slice]

theorem length_slice_of_le {b : Bytes} {offset len : Nat} (h : offset + len ≤ b.length) :
    (slice b offset len).length = len := by
  rw [length_slice]; omega

theorem slice_append_left {a b : Bytes} {offset len : Nat} (h : offset + len ≤ a.length) :
    slice (a ++ b) offset len = slice a offset len := by
  rw [slice, slice, List.drop_append_of_le_length (by omega),
    List.take_append_of_le_length (by rw [List.length_drop]; omega)]

theorem slice_append_right (a b : Bytes) (offset len : Nat) :
    slice (a ++ b) (a.length + offset) len = slice b offset len := by
  rw [slice, slice, List.drop_length_add_append]

theorem length_splice {b data : Bytes} {offset : Nat} (h : offset + data.length ≤ b.length) :
    (splice b offset data).length = b.length := by
  simp only [splice, List.length_append, List.length_take, List.length_drop]; omega

theorem slice_splice_self {b data : Bytes} {offset : Nat} (h : offset + data.length ≤ b.length) :
    slice (splice b offset data) offset data.length = data := by
  have hl : (b.take offset).length = offset := by rw [List.length_take]; omega
  have hd : (b.take offset ++ (data ++ b.drop (offset + data.length))).drop offset
      = data ++ b.drop (offset + data.length) := List.drop_left' hl
  rw [splice, slice, List.append_assoc, hd, List.take_append_length]

/-! ## little-endian numbers -/

def ofNat : (width n : Nat) → Bytes
  | 0, _ => []
  | width + 1, n => UInt8.ofNat n :: ofNat width (n / 256)

def toNat : Bytes → Nat
  | [] => 0
  | b :: rest => b.toNat + 256 * toNat rest

theorem length_ofNat (width n : Nat) : (ofNat width n).length = width := by
  induction width generalizing n with
  | zero => rfl
  | succ width ih => simp [ofNat, ih]

theorem shiftLeft_byte (n width : Nat) : n <<< (8 * (width + 1)) = 256 * (n <<< (8 * width)) := by
  rw [Nat.mul_succ, Nat.shiftLeft_add, Nat.shiftLeft_eq _ 8, Nat.mul_comm]

theorem toNat_lt (b : Bytes) : toNat b < 1 <<< (8 * b.length) := by
  induction b with
  | nil => simp [toNat]
  | cons x rest ih =>
    have hx : x.toNat < 256 := x.toNat_lt
    rw [toNat, List.length_cons, shiftLeft_byte]
    omega

theorem toNat_ofNat (width n : Nat) : toNat (ofNat width n) = n % (1 <<< (8 * width)) := by
  induction width generalizing n with
  | zero => simp [ofNat, toNat, Nat.mod_one]
  | succ width ih => rw [ofNat, toNat, ih, UInt8.toNat_ofNat', shiftLeft_byte, Nat.mod_mul]

theorem ofNat_toNat (b : Bytes) : ofNat b.length (toNat b) = b := by
  induction b with
  | nil => rfl
  | cons x rest ih =>
    have hx : x.toNat < 256 := x.toNat_lt
    have hd : (x.toNat + 256 * toNat rest) / 256 = toNat rest := by omega
    have hm : UInt8.ofNat (x.toNat + 256 * toNat rest) = x := by
      apply UInt8.toNat_inj.mp
      rw [UInt8.toNat_ofNat']
      omega
    rw [toNat, List.length_cons, ofNat, hd, hm, ih]

/-- the bytes of a 32-bit number -/
def ofWord (w : UInt32) : Bytes := ofNat 4 w.toNat

/-- the 32-bit number at `offset` -/
def word (b : Bytes) (offset : Nat) : UInt32 := UInt32.ofNat (toNat (slice b offset 4))

theorem length_ofWord (w : UInt32) : (ofWord w).length = 4 := length_ofNat 4 _

theorem word_ofWord_append (w : UInt32) (rest : Bytes) : word (ofWord w ++ rest) 0 = w := by
  have hl : (ofWord w).length = 4 := length_ofWord w
  have hs : slice (ofWord w ++ rest) 0 4 = ofWord w := by
    rw [slice, List.drop_zero, ← hl, List.take_append_length]
  have hm : w.toNat % (1 <<< (8 * 4)) = w.toNat := Nat.mod_eq_of_lt w.toNat_lt
  rw [word, hs, ofWord, toNat_ofNat, hm, UInt32.ofNat_toNat]

theorem word_append_left {a b : Bytes} {offset : Nat} (h : offset + 4 ≤ a.length) :
    word (a ++ b) offset = word a offset := by
  rw [word, word, slice_append_left h]

theorem word_append_right (a b : Bytes) (offset : Nat) :
    word (a ++ b) (a.length + offset) = word b offset := by
  rw [word, word, slice_append_right]

theorem ofWord_word {b : Bytes} {offset : Nat} (h : offset + 4 ≤ b.length) :
    ofWord (word b offset) = slice b offset 4 := by
  have hl : (slice b offset 4).length = 4 := length_slice_of_le h
  have hlt : toNat (slice b offset 4) < 1 <<< (8 * 4) := by
    have hb := toNat_lt (slice b offset 4)
    rwa [hl] at hb
  have hw : (word b offset).toNat = toNat (slice b offset 4) := by
    rw [word, UInt32.toNat_ofNat']
    exact Nat.mod_eq_of_lt hlt
  have hd := ofNat_toNat (slice b offset 4)
  rw [hl] at hd
  rw [ofWord, hw, hd]

end Bytes
end TaggedStream
