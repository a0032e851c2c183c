import Mathlib
import RecordLog.ChaCha

/-!
# Key streams, byte by byte

Combining data with a key stream goes block by block, but each byte meets the byte of the stream at
its own offset and no other. So lengths stay, pieces at growing offsets give what the whole gives,
and doing it twice restores the data.
-/

namespace RecordLog.ChaCha.Stream

theorem getElem?_rest (s : Stream) (offset : Nat) {i : Nat} (h : i < (s.rest offset).length) :
    (s.rest offset)[i]? = some (s.byteAt (offset + i)) := by
  rw [length_rest] at h
  have hdiv : (offset + i) / 64 = offset / 64 := by omega
  have hmod : (offset + i) % 64 = offset % 64 + i := by omega
  have hlt : offset % 64 + i < (s.block (offset / 64).toUInt32).length := by
    rw [s.length_block]
    omega
  rw [rest, byteAt, hdiv, hmod, List.getElem?_drop, List.getD_eq_getElem?_getD,
    List.getElem?_eq_getElem hlt, Option.getD_some]

theorem xor_rest (s : Stream) (offset : Nat) (data : Bytes) :
    Bytes.xor data (s.rest offset) =
      (data.take (s.rest offset).length).mapIdx fun i b => b ^^^ s.byteAt (offset + i) := by
  refine List.ext_getElem? fun i => ?_
  rw [Bytes.xor, List.getElem?_zipWith, List.getElem?_mapIdx]
  by_cases hi : i < (s.rest offset).length
  · rw [List.getElem?_take_of_lt hi, getElem?_rest s offset hi]
    cases data[i]? <;> rfl
  · rw [List.getElem?_take_eq_none (Nat.le_of_not_lt hi),
      List.getElem?_eq_none (Nat.le_of_not_lt hi)]
    cases data[i]? <;> rfl

/-- Each byte is combined with the byte of the stream at its offset. -/
theorem apply_eq_mapIdx (s : Stream) (offset : Nat) (data : Bytes) :
    s.apply offset data = data.mapIdx fun i b => b ^^^ s.byteAt (offset + i) := by
  fun_induction s.apply offset data with
  | case1 => rfl
  | case2 offset b data key ih =>
    have hsplit := List.take_append_drop key.length (b :: data)
    rw [ih, xor_rest]
    conv_rhs => rw [← hsplit, List.mapIdx_append]
    refine congrArg _ (List.ext_getElem? fun i => ?_)
    rw [List.getElem?_mapIdx, List.getElem?_mapIdx, List.getElem?_drop]
    by_cases hlen : key.length ≤ (b :: data).length
    · rw [List.length_take_of_le hlen, Nat.add_comm i, Nat.add_assoc]
    · rw [List.getElem?_eq_none (by omega), Option.map_none, Option.map_none]

@[simp] theorem length_apply (s : Stream) (offset : Nat) (data : Bytes) :
    (s.apply offset data).length = data.length := by
  rw [apply_eq_mapIdx, List.length_mapIdx]

theorem getElem?_apply (s : Stream) (offset : Nat) (data : Bytes) (i : Nat) :
    (s.apply offset data)[i]? = data[i]?.map (· ^^^ s.byteAt (offset + i)) := by
  rw [apply_eq_mapIdx, List.getElem?_mapIdx]

@[simp] theorem apply_apply (s : Stream) (offset : Nat) (data : Bytes) :
    s.apply offset (s.apply offset data) = data := by
  refine List.ext_getElem? fun i => ?_
  rw [getElem?_apply, getElem?_apply, Option.map_map]
  have hid : ((· ^^^ s.byteAt (offset + i)) ∘ (· ^^^ s.byteAt (offset + i)) : UInt8 → UInt8) = id :=
    funext fun b => by simp
  rw [hid, Option.map_id, id]

theorem apply_drop (s : Stream) (offset : Nat) (data : Bytes) (i : Nat) :
    s.apply (offset + i) (data.drop i) = (s.apply offset data).drop i := by
  refine List.ext_getElem? fun j => ?_
  rw [getElem?_apply, List.getElem?_drop, List.getElem?_drop, getElem?_apply, Nat.add_assoc]

theorem apply_take (s : Stream) (offset : Nat) (data : Bytes) (n : Nat) :
    s.apply offset (data.take n) = (s.apply offset data).take n := by
  refine List.ext_getElem? fun j => ?_
  rw [getElem?_apply, List.getElem?_take, List.getElem?_take, getElem?_apply]
  split <;> rfl

/-- Data in two pieces, the second at the offset where the first ends. -/
theorem apply_append (s : Stream) (offset : Nat) (x x' : Bytes) :
    s.apply offset (x ++ x') = s.apply offset x ++ s.apply (offset + x.length) x' := by
  have hfront := apply_take s offset (x ++ x') x.length
  have hback := apply_drop s offset (x ++ x') x.length
  rw [List.take_left] at hfront
  rw [List.drop_left] at hback
  rw [hfront, hback, List.take_append_drop]

end RecordLog.ChaCha.Stream
