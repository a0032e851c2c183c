/-!
# Byte strings

Everything the log stores is a list of bytes. `Bytes.ofNat` writes a number in a fixed number of
little-endian bytes and `Bytes.toNat` reads such a form back; `Bytes.xor` combines two strings
byte by byte.
-/

namespace RecordLog

abbrev Bytes := List UInt8

namespace Bytes

/-- The lowest `width` base-256 digits of `n`, least significant first. -/
def ofNat : (width : Nat) → (n : Nat) → Bytes
  | 0, _ => []
  | width + 1, n => n.toUInt8 :: ofNat width (n / 256)

def toNat : Bytes → Nat
  | [] => 0
  | b :: rest => b.toNat + 256 * toNat rest

@[simp] theorem length_ofNat (width n : Nat) : (ofNat width n).length = width := by
  induction width generalizing n with
  | zero => rfl
  | succ width ih => simp [ofNat, ih]

/-- The result is as long as the shorter of the two. -/
def xor (a b : Bytes) : Bytes := List.zipWith (· ^^^ ·) a b

@[simp] theorem length_xor (a b : Bytes) : (xor a b).length = min a.length b.length := by
  simp [xor]

end Bytes

end RecordLog
