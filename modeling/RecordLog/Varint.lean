import RecordLog.Base128

/-!
# Signed numbers of varying size

A signed number is folded onto the naturals, 0, -1, 1, -2, 2 and so on becoming 0, 1, 2, 3, 4,
and written in base 128. Small magnitudes of either sign thus take few bytes.
-/

namespace RecordLog.Varint

def zigzag : Int → Nat
  | .ofNat n => 2 * n
  | .negSucc n => 2 * n + 1

def unzigzag (n : Nat) : Int :=
  if n % 2 = 0 then .ofNat (n / 2) else .negSucc (n / 2)

theorem unzigzag_zigzag (v : Int) : unzigzag (zigzag v) = v := by
  cases v with
  | ofNat n => simp [zigzag, unzigzag]
  | negSucc n => simp [zigzag, unzigzag]; omega

theorem zigzag_unzigzag (n : Nat) : zigzag (unzigzag n) = n := by
  unfold unzigzag
  split <;> simp only [zigzag] <;> omega

def maxSize : Nat := Base128.maxSize

def encode (v : Int) : Bytes := Base128.encode (zigzag v)

def size (v : Int) : Nat := Base128.size (zigzag v)

def read (bs : Bytes) : Reading Int := (Base128.read bs).map unzigzag

theorem length_encode (v : Int) : (encode v).length = size v := Base128.length_encode _

theorem encode_ne_nil (v : Int) : encode v ≠ [] := Base128.encode_ne_nil _

theorem used_le_of_read {bs : Bytes} {v : Int} {used : Nat} (h : read bs = .value v used) :
    0 < used ∧ used ≤ bs.length := by
  unfold read Base128.read at h
  cases hr : Base128.readWithin Base128.maxSize bs with
  | value n k =>
    simp only [hr, Reading.map, Reading.value.injEq] at h
    exact h.2 ▸ Base128.used_le_of_readWithin hr
  | short => simp [hr, Reading.map] at h
  | overlong => simp [hr, Reading.map] at h

end RecordLog.Varint
