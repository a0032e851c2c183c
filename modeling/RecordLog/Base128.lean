import RecordLog.Bytes

/-!
# Numbers in base 128

A number is written in bytes of seven bits each, lowest first, every byte but the last with its
high bit set. A number of 64 bits takes at most ten bytes, and of the tenth only the lowest bit.
Reading tells apart a number, an input that ends inside one, and a form too long for 64 bits.
-/

namespace RecordLog

/-- What the front of an input holds: a value and the number of bytes it takes, the beginning of
a longer form, or a form that no 64-bit value has. -/
inductive Reading (α : Type) where
  | value (a : α) (used : Nat)
  | short
  | overlong
  deriving Repr, DecidableEq

namespace Reading

def map {α β : Type} (f : α → β) : Reading α → Reading β
  | .value a used => .value (f a) used
  | .short => .short
  | .overlong => .overlong

end Reading

namespace Base128

def maxSize : Nat := 10

def encode (n : Nat) : Bytes :=
  if n < 128 then [n.toUInt8] else (n % 128 + 128).toUInt8 :: encode (n / 128)
termination_by n
decreasing_by omega

def size (n : Nat) : Nat :=
  if n < 128 then 1 else size (n / 128) + 1
termination_by n
decreasing_by omega

def readWithin : (places : Nat) → Bytes → Reading Nat
  | _, [] => .short
  | places, b :: rest =>
    if places ≤ 1 ∧ 1 < b then .overlong
    else if b < 128 then .value b.toNat 1
    else
      match readWithin (places - 1) rest with
      | .value v used => .value (b.toNat - 128 + 128 * v) (used + 1)
      | other => other

def read (bs : Bytes) : Reading Nat := readWithin maxSize bs

theorem length_encode (n : Nat) : (encode n).length = size n := by
  induction n using Nat.strongRecOn with
  | ind n ih =>
    rw [encode, size]
    split
    · rfl
    · simp [ih (n / 128) (by omega)]

theorem size_pos (n : Nat) : 0 < size n := by
  rw [size]; split <;> omega

theorem encode_ne_nil (n : Nat) : encode n ≠ [] := by
  rw [encode]; split <;> simp

theorem used_le_of_readWithin {places : Nat} {bs : Bytes} {v used : Nat}
    (h : readWithin places bs = .value v used) : 0 < used ∧ used ≤ bs.length := by
  induction bs generalizing places v used with
  | nil => simp [readWithin] at h
  | cons b rest ih =>
    simp only [readWithin] at h
    split at h
    · simp at h
    split at h
    · simp only [Reading.value.injEq] at h
      simp [← h.2]
    split at h
    · rename_i v' used' heq
      simp only [Reading.value.injEq] at h
      have := (ih heq).2
      simp only [List.length_cons, ← h.2]
      omega
    · rename_i hne
      exact absurd h (hne v used)

end Base128

end RecordLog
