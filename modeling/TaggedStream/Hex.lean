import TaggedStream.Bytes

/-!
# Hexadecimal text

Lower-case base-16 text of numbers and of byte strings.

* `Hex.ofNat n`           the digits of `n`, no leading zero
* `Hex.padded width n`    exactly `width` digits
* `Hex.toNat? s`          the number a digit string stands for
* `Hex.ofBytes`, `Hex.toBytes?`   two digits per byte, in order
-/

namespace TaggedStream.Hex

def digits : (width n : Nat) → List Char
  | 0, _ => []
  | width + 1, n => digits width (n / 16) ++ [Nat.digitChar (n % 16)]

def ofNat (n : Nat) : String := String.ofList (Nat.toDigits 16 n)

def padded (width n : Nat) : String := String.ofList (digits width n)

/-- the value of one digit, either case -/
def digit? (c : Char) : Option Nat :=
  if '0' ≤ c ∧ c ≤ '9' then some (c.toNat - '0'.toNat)
  else if 'a' ≤ c ∧ c ≤ 'f' then some (c.toNat - 'a'.toNat + 10)
  else if 'A' ≤ c ∧ c ≤ 'F' then some (c.toNat - 'A'.toNat + 10)
  else none

def toNat? (s : String) : Option Nat :=
  if s.isEmpty then none
  else s.toList.foldlM (fun n c => (digit? c).map (16 * n + ·)) 0

/-! ## byte strings -/

def ofBytes (b : Bytes) : String := String.ofList (b.flatMap fun x => digits 2 x.toNat)

def pairs? : List Char → Option Bytes
  | [] => some []
  | [_] => none
  | high :: low :: rest => do
    let h ← digit? high
    let l ← digit? low
    let tail ← pairs? rest
    return UInt8.ofNat (16 * h + l) :: tail

def toBytes? (s : String) : Option Bytes := pairs? s.toList

end TaggedStream.Hex
