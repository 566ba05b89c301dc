import TaggedStream.Failure

/-!
# Scalars

The ten fixed-width values a stream can hold, all little-endian.

* `ScalarType`           the types; `size` is the width in bytes
* `ScalarType.Value t`   a value of `t`, as its bit pattern (a float is never rounded)
* `encode`, `decode`     a value and its `size` bytes
* `read`, `write`        the same at the front of a longer buffer
* `text`, `parse?`       integers in decimal, floats as their bits in hexadecimal
* `Scalar`               a value together with its type
-/

namespace TaggedStream

inductive ScalarType where
  | u8 | u16 | u32 | u64
  | i8 | i16 | i32 | i64
  | f32 | f64
  deriving DecidableEq, Repr, Inhabited

namespace ScalarType

def size : ScalarType → Nat
  | u8 | i8 => 1
  | u16 | i16 => 2
  | u32 | i32 | f32 => 4
  | u64 | i64 | f64 => 8

abbrev Value (t : ScalarType) : Type := BitVec (8 * t.size)

theorem size_pos (t : ScalarType) : 0 < t.size := by cases t <;> decide

/-! ## bytes -/

def encode (t : ScalarType) (v : t.Value) : Bytes := Bytes.ofNat t.size v.toNat

def decode (t : ScalarType) (b : Bytes) : t.Value := BitVec.ofNat _ b.toNat

theorem length_encode (t : ScalarType) (v : t.Value) : (t.encode v).length = t.size :=
  Bytes.length_ofNat _ _

theorem decode_encode (t : ScalarType) (v : t.Value) : t.decode (t.encode v) = v := by
  have h : v.toNat % (1 <<< (8 * t.size)) = v.toNat := by
    rw [Nat.one_shiftLeft, Nat.mod_eq_of_lt v.isLt]
  rw [decode, encode, Bytes.toNat_ofNat, h, BitVec.ofNat_toNat, BitVec.setWidth_eq]

theorem encode_decode (t : ScalarType) {b : Bytes} (h : b.length = t.size) :
    t.encode (t.decode b) = b := by
  have hb : b.toNat < 2 ^ (8 * t.size) := by
    have hl := b.toNat_lt
    rwa [h, Nat.one_shiftLeft] at hl
  rw [encode, decode, BitVec.toNat_ofNat, Nat.mod_eq_of_lt hb, ← h, Bytes.ofNat_toNat]

/-- the value in the first bytes of `b` -/
def read (t : ScalarType) (b : Bytes) : Except Fault t.Value :=
  if t.size ≤ b.length then .ok (t.decode (b.take t.size)) else .error .outOfRange

/-- `b` with `v` over its first bytes -/
def write (t : ScalarType) (v : t.Value) (b : Bytes) : Except Fault Bytes :=
  if t.size ≤ b.length then .ok (b.splice 0 (t.encode v)) else .error .outOfRange

/-! ## text -/

inductive Style where
  | unsigned
  | signed
  | bits

def style : ScalarType → Style
  | u8 | u16 | u32 | u64 => .unsigned
  | i8 | i16 | i32 | i64 => .signed
  | f32 | f64 => .bits

def text (t : ScalarType) (v : t.Value) : String :=
  match t.style with
  | .unsigned => toString v.toNat
  | .signed => toString v.toInt
  | .bits => "0x" ++ Hex.padded (2 * t.size) v.toNat

/-- the value that a text stands for, if it is one of `t` -/
def parse? (t : ScalarType) (s : String) : Option t.Value :=
  let bound := 1 <<< (8 * t.size)
  match t.style with
  | .unsigned => do
    let n ← s.toNat?
    guard (n < bound)
    return BitVec.ofNat _ n
  | .signed => do
    let i ← s.toInt?
    guard (-(bound : Int) ≤ 2 * i ∧ 2 * i < bound)
    return BitVec.ofInt _ i
  | .bits => do
    guard (s.startsWith "0x")
    let n ← Hex.toNat? (s.drop 2).toString
    guard (n < bound)
    return BitVec.ofNat _ n

end ScalarType

structure Scalar where
  type : ScalarType
  value : type.Value

namespace Scalar

def bytes (s : Scalar) : Bytes := s.type.encode s.value

def text (s : Scalar) : String := s.type.text s.value

end Scalar
end TaggedStream
