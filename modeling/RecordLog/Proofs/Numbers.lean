import Mathlib
import RecordLog.Varint

/-!
# Reading numbers back

A number of fixed width is read back if it is small enough for the width. A number below
`2 * 128 ^ places` is read back by a reader of `places + 1` bytes, whatever follows it, one that
was cut short is found to be so, and a larger one is refused. With ten places that is every number
of 64 bits, and through the folding every signed one.
-/

namespace RecordLog

namespace Bytes

theorem toNat_ofNat {width n : Nat} (h : n < 256 ^ width) : toNat (ofNat width n) = n := by
  induction width generalizing n with
  | zero => simp [ofNat, toNat]; omega
  | succ width ih =>
    have : n / 256 < 256 ^ width := by rw [Nat.pow_succ] at h; omega
    simp only [ofNat, toNat, ih this, Nat.toUInt8_eq, UInt8.toNat_ofNat']
    omega

end Bytes

namespace Base128

theorem readWithin_digit (places n : Nat) (rest : Bytes) :
    readWithin (places + 2) ((n % 128 + 128).toUInt8 :: rest) =
      match readWithin (places + 1) rest with
      | .value v used => .value (n % 128 + 128 * v) (used + 1)
      | other => other := by
  have hb : ((n % 128 + 128).toUInt8).toNat = n % 128 + 128 := by simp; omega
  have hlt : ¬ (n % 128 + 128).toUInt8 < 128 := by
    rw [UInt8.lt_iff_toNat_lt, hb]
    simp
  rw [readWithin, if_neg (by omega), if_neg hlt, hb, Nat.add_sub_cancel]
  rfl

theorem readWithin_encode_append {places n : Nat} (h : n < 2 * 128 ^ places) (t : Bytes) :
    readWithin (places + 1) (encode n ++ t) = .value n (size n) := by
  induction places generalizing n with
  | zero =>
    have hn : n < 128 := by simp only [Nat.pow_zero] at h; omega
    rw [encode, size]
    simp only [hn, if_true, List.cons_append, List.nil_append, readWithin]
    have hb : (n.toUInt8).toNat = n := by simp; omega
    have hle : ¬ (1 : UInt8) < n.toUInt8 := by
      rw [UInt8.lt_iff_toNat_lt, hb]
      simp only [Nat.pow_zero] at h
      simp only [UInt8.toNat_one]
      omega
    have hlt : n.toUInt8 < 128 := by
      rw [UInt8.lt_iff_toNat_lt, hb]
      exact hn
    simp only [hle, and_false, if_false, hlt, if_true, hb]
  | succ places ih =>
    rw [encode, size]
    split
    · rename_i hn
      have hb : (n.toUInt8).toNat = n := by simp; omega
      have hlt : n.toUInt8 < 128 := by
        rw [UInt8.lt_iff_toNat_lt, hb]
        exact hn
      rw [List.cons_append, readWithin, if_neg (by omega), if_pos hlt, hb]
    · have hq : n / 128 < 2 * 128 ^ places := by
        rw [Nat.pow_succ] at h
        omega
      rw [List.cons_append, readWithin_digit, ih hq]
      exact congrArg (Reading.value · _) (Nat.mod_add_div n 128)

/-- A number of 64 bits is read back from the front of any input. -/
theorem read_encode_append {n : Nat} (h : n < 2 ^ 64) (t : Bytes) :
    read (encode n ++ t) = .value n (size n) :=
  readWithin_encode_append (by omega) t

/-- A number that was cut short is told apart from every other input. -/
theorem readWithin_take_encode {places n k : Nat} (h : n < 2 * 128 ^ places) (hk : k < size n) :
    readWithin (places + 1) ((encode n).take k) = .short := by
  induction places generalizing n k with
  | zero =>
    have hn : n < 128 := by
      rw [Nat.pow_zero] at h
      omega
    rw [size, if_pos hn] at hk
    obtain rfl : k = 0 := by omega
    rfl
  | succ places ih =>
    cases k with
    | zero => rfl
    | succ k =>
      rw [size] at hk
      split at hk
      · omega
      · rename_i hn
        have hq : n / 128 < 2 * 128 ^ places := by
          rw [Nat.pow_succ] at h
          omega
        rw [encode, if_neg hn, List.take_succ_cons, readWithin_digit, ih hq (by omega)]

theorem read_take_encode {n k : Nat} (h : n < 2 ^ 64) (hk : k < size n) :
    read ((encode n).take k) = .short :=
  readWithin_take_encode (by omega) hk

theorem readWithin_of_large {places n : Nat} (h : 2 * 128 ^ places ≤ n) (t : Bytes) :
    readWithin (places + 1) (encode n ++ t) = .overlong := by
  induction places generalizing n with
  | zero =>
    have hn : 2 ≤ n := by simpa using h
    have hlt (m : Nat) (hm : 1 < m) (hm' : m < 256) : (1 : UInt8) < m.toUInt8 := by
      rw [UInt8.lt_iff_toNat_lt]
      simp only [UInt8.toNat_one, Nat.toUInt8_eq, UInt8.toNat_ofNat']
      omega
    rw [encode]
    split
    · have := hlt n (by omega) (by omega)
      simp [readWithin, this]
    · have := hlt (n % 128 + 128) (by omega) (by omega)
      simp only [List.cons_append, readWithin, this, and_true]
      simp
  | succ places ih =>
    have hp : 0 < 128 ^ places := Nat.pow_pos (by decide)
    have hn : ¬ n < 128 := by
      rw [Nat.pow_succ] at h
      omega
    have hq : 2 * 128 ^ places ≤ n / 128 := by
      rw [Nat.pow_succ] at h
      omega
    rw [encode, if_neg hn, List.cons_append, readWithin_digit, ih hq]

theorem read_of_large {n : Nat} (h : 2 ^ 64 ≤ n) (t : Bytes) : read (encode n ++ t) = .overlong :=
  readWithin_of_large (by omega) t

end Base128

namespace Varint

theorem read_encode_append {v : Int} (h : zigzag v < 2 ^ 64) (t : Bytes) :
    read (encode v ++ t) = .value v (size v) := by
  simp only [read, encode, Base128.read_encode_append h, Reading.map, unzigzag_zigzag, size]

theorem read_take_encode {v : Int} {k : Nat} (h : zigzag v < 2 ^ 64) (hk : k < size v) :
    read ((encode v).take k) = .short := by
  simp only [read, encode, Base128.read_take_encode h hk, Reading.map]

end Varint

end RecordLog
