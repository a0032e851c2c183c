import Mathlib
import RecordLog.Proofs.Enciphered
import RecordLog.Proofs.StreamBytes

/-!
# How far a key stream reaches

A counter of 32 bits bounds the key stream of a live file. Up to `Live.limit` bytes are encoded and
decoded in any pieces and from any offset on, and a call that goes past the limit is refused. What a
stream does at one offset agrees with what it does at all others, also within the very last block,
behind which the counter begins anew.
-/

namespace RecordLog

namespace ChaCha.Live

def limit : Nat := 64 * maxBlocks

/-- How far a stream reaches that was positioned at an offset. Within the last block that block is
made at once, and the counter begins anew behind it. -/
def reach (offset : Nat) : Nat := if offset ≤ limit then limit else limit + 64 * UInt32.size

variable {key : Key} {id : SegmentId} {offset size : Nat} {x x' y y' : Bytes}

theorem reaches_iff (h : offset / 64 ≤ maxBlocks) :
    reaches offset size = true ↔ offset + size ≤ reach offset := by
  have hsize : UInt32.size = maxBlocks + 1 := rfl
  rw [reaches, decide_eq_true_eq, buffered, counter, reach, limit, hsize]
  by_cases hmod : offset % 64 = 0
  · rw [if_pos hmod, if_pos hmod, if_pos (by omega)]
    omega
  rw [if_neg hmod, if_neg hmod]
  by_cases hlast : offset / 64 = maxBlocks
  · rw [hlast, Nat.mod_self, if_neg (by omega)]
    omega
  · have hnext : offset / 64 + 1 < maxBlocks + 1 := by omega
    rw [Nat.mod_eq_of_lt hnext, if_pos (by omega)]
    omega

theorem reach_add (h : offset + size ≤ reach offset) : reach (offset + size) = reach offset := by
  unfold reach at *
  split at h <;> rename_i hoff
  · rw [if_pos h, if_pos hoff]
  · rw [if_neg hoff, if_neg (by omega)]

/-- Bytes in reach are combined with the key stream, and no others are. -/
theorem apply_eq_ok_iff :
    apply key id offset x = .ok y ↔
      offset / 64 ≤ maxBlocks ∧ offset + x.length ≤ reach offset ∧
        y = (stream key id).apply offset x := by
  unfold apply
  by_cases hseek : offset / 64 ≤ maxBlocks
  · rw [if_neg (Nat.not_lt.2 hseek)]
    by_cases hreach : offset + x.length ≤ reach offset
    · simp [(reaches_iff hseek).2 hreach, hseek, hreach, eq_comm]
    · simp [mt (reaches_iff hseek).1 hreach, hreach]
  · simp [Nat.lt_of_not_le hseek, hseek]

theorem exists_of_apply_eq_error {e : Error} (h : apply key id offset x = .error e) :
    ∃ text, e = .transform text := by
  unfold apply at h
  split at h
  · exact ⟨_, (Except.error.inj h).symm⟩
  split at h
  · cases h
  · exact ⟨_, (Except.error.inj h).symm⟩

theorem length_of_apply (h : apply key id offset x = .ok y) : y.length = x.length := by
  obtain ⟨-, -, rfl⟩ := apply_eq_ok_iff.1 h
  exact Stream.length_apply ..

theorem apply_of_apply (h : apply key id offset x = .ok y) : apply key id offset y = .ok x := by
  obtain ⟨hseek, hle, rfl⟩ := apply_eq_ok_iff.1 h
  exact apply_eq_ok_iff.2 ⟨hseek, by rwa [Stream.length_apply], (Stream.apply_apply ..).symm⟩

theorem apply_append (h : apply key id offset x = .ok y)
    (h' : apply key id (offset + x.length) x' = .ok y') :
    apply key id offset (x ++ x') = .ok (y ++ y') := by
  obtain ⟨hseek, hle, rfl⟩ := apply_eq_ok_iff.1 h
  obtain ⟨-, hle', rfl⟩ := apply_eq_ok_iff.1 h'
  rw [reach_add hle, Nat.add_assoc, ← List.length_append] at hle'
  exact apply_eq_ok_iff.2 ⟨hseek, hle', (Stream.apply_append ..).symm⟩

theorem apply_front (h : apply key id offset (x ++ x') = .ok y) :
    apply key id offset x = .ok (y.take x.length) := by
  obtain ⟨hseek, hle, rfl⟩ := apply_eq_ok_iff.1 h
  rw [List.length_append] at hle
  refine apply_eq_ok_iff.2 ⟨hseek, by omega, ?_⟩
  rw [← Stream.apply_take, List.take_left]

theorem apply_of_le (h : offset + x.length ≤ limit) :
    apply key id offset x = .ok ((stream key id).apply offset x) := by
  have hoff : offset ≤ limit := by omega
  have hseek : offset / 64 ≤ maxBlocks := by
    unfold limit at hoff
    omega
  exact apply_eq_ok_iff.2 ⟨hseek, by rwa [reach, if_pos hoff], rfl⟩

theorem exists_error_of_lt (key : Key) (id : SegmentId) (hoff : offset ≤ limit)
    (h : limit < offset + x.length) : ∃ text, apply key id offset x = .error (.transform text) := by
  cases hx : apply key id offset x with
  | ok y =>
    obtain ⟨-, hle, -⟩ := apply_eq_ok_iff.1 hx
    rw [reach, if_pos hoff] at hle
    omega
  | error e =>
    obtain ⟨text, rfl⟩ := exists_of_apply_eq_error hx
    exact ⟨text, rfl⟩

end ChaCha.Live

namespace Cipher

open ChaCha ChaCha.Live

/-- Encodes pieces that lie one behind the other, each by a call of its own. -/
def encodePieces (c : Cipher) (id : SegmentId) :
    (offset : Nat) → List Bytes → List (Except Error Bytes)
  | _, [] => []
  | offset, x :: xs => c.encodeAt id offset x :: c.encodePieces id (offset + x.length) xs

theorem sequential_chacha (key : Key) : (chacha key).Sequential := fun _ _ _ _ _ => apply_front

variable {key : Key} {id : SegmentId} {offset : Nat} {pieces : List Bytes}

theorem encodePieces_of_le (h : offset + pieces.flatten.length ≤ limit) :
    ∃ ys : List Bytes, (chacha key).encodePieces id offset pieces = ys.map .ok ∧
      ys.flatten = (Live.stream key id).apply offset pieces.flatten := by
  induction pieces generalizing offset with
  | nil => exact ⟨[], rfl, by rw [List.flatten_nil, Stream.apply]⟩
  | cons x xs ih =>
    rw [List.flatten_cons, List.length_append, ← Nat.add_assoc] at h
    obtain ⟨ys, hys, hflat⟩ := ih h
    have hx : (chacha key).encodeAt id offset x = .ok ((Live.stream key id).apply offset x) :=
      apply_of_le (Nat.le_trans (Nat.le_add_right _ _) h)
    refine ⟨(Live.stream key id).apply offset x :: ys, ?_, ?_⟩
    · rw [encodePieces, hx, hys, List.map_cons]
    · rw [List.flatten_cons, List.flatten_cons, hflat, ← Stream.apply_append]

/-- Of pieces that go past the limit one does that begins within it, and that one is refused. -/
theorem exists_error_mem_encodePieces (key : Key) (id : SegmentId) (hoff : offset ≤ limit)
    (h : limit < offset + pieces.flatten.length) :
    ∃ text, .error (.transform text) ∈ (chacha key).encodePieces id offset pieces := by
  induction pieces generalizing offset with
  | nil =>
    rw [List.flatten_nil, List.length_nil] at h
    omega
  | cons x xs ih =>
    rw [List.flatten_cons, List.length_append, ← Nat.add_assoc] at h
    by_cases hx : limit < offset + x.length
    · obtain ⟨text, htext⟩ := exists_error_of_lt key id hoff hx
      exact ⟨text, List.mem_cons.2 (.inl htext.symm)⟩
    · obtain ⟨text, htext⟩ := ih (Nat.le_of_not_lt hx) h
      exact ⟨text, List.mem_cons_of_mem _ htext⟩

/-- Up to the limit data is encoded byte by byte, in one call or in any pieces, and each range of
it decodes alone. Data that goes past the limit is refused, and so is one of its pieces however it
is split. -/
theorem chacha_reaches_limit (key : Key) (id : SegmentId) (data : Bytes) (h : offset ≤ limit) :
    (offset + data.length ≤ limit ∧
      ∃ bytes, (chacha key).encodeAt id offset data = .ok bytes ∧ bytes.length = data.length ∧
        (∀ i, bytes[i]? = data[i]?.map (· ^^^ (Live.stream key id).byteAt (offset + i))) ∧
        (∀ pieces : List Bytes, pieces.flatten = data →
          ∃ ys : List Bytes, (chacha key).encodePieces id offset pieces = ys.map .ok ∧
            ys.flatten = bytes) ∧
        (chacha key).decodeAt id offset bytes = .ok data ∧
        ∀ i n, i ≤ data.length → (chacha key).decodeAt id (offset + i) ((bytes.drop i).take n) =
          .ok ((data.drop i).take n)) ∨
    (limit < offset + data.length ∧
      (∃ text, (chacha key).encodeAt id offset data = .error (.transform text)) ∧
        ∀ pieces : List Bytes, pieces.flatten = data →
          ∃ text, .error (.transform text) ∈ (chacha key).encodePieces id offset pieces) := by
  rcases Nat.lt_or_ge limit (offset + data.length) with hlt | hle
  · refine .inr ⟨hlt, exists_error_of_lt key id h hlt, ?_⟩
    rintro pieces rfl
    exact exists_error_mem_encodePieces key id h hlt
  refine .inl ⟨hle, _, apply_of_le hle, Stream.length_apply .., Stream.getElem?_apply _ _ _, ?_,
    apply_of_apply (apply_of_le hle), fun i n hi => ?_⟩
  · rintro pieces rfl
    exact encodePieces_of_le hle
  · have hrange : offset + i + ((data.drop i).take n).length ≤ limit := by
      rw [List.length_take, List.length_drop]
      omega
    rw [← Stream.apply_drop, ← Stream.apply_take]
    exact apply_of_apply (apply_of_le hrange)

/-- Of two bytes the second one is past the limit. -/
theorem chacha_reaches_limit_lastByte :
    let c := chacha (.ofBytes (List.replicate 32 9))
    limit - 1 ≤ limit ∧
      (∃ bytes, c.encodeAt ⟨128, 77⟩ (limit - 1) [5] = .ok bytes ∧
        c.decodeAt ⟨128, 77⟩ (limit - 1) bytes = .ok [5]) ∧
      (∃ text, c.encodeAt ⟨128, 77⟩ (limit - 1) [5, 6] = .error (.transform text)) ∧
      ∃ text, .error (.transform text) ∈ c.encodePieces ⟨128, 77⟩ (limit - 1) [[5], [], [6]] := by
  intro c
  have hpos : 0 < limit := by decide
  refine ⟨Nat.sub_le _ _, ?_, ?_⟩
  · rcases chacha_reaches_limit _ ⟨128, 77⟩ [5] (Nat.sub_le limit 1) with
      ⟨-, bytes, hbytes, -, -, -, hdata, -⟩ | ⟨hlt, -⟩
    · exact ⟨bytes, hbytes, hdata⟩
    · rw [List.length_singleton] at hlt
      omega
  · rcases chacha_reaches_limit _ ⟨128, 77⟩ [5, 6] (Nat.sub_le limit 1) with
      ⟨hle, -⟩ | ⟨-, hwhole, hpieces⟩
    · simp only [List.length_cons, List.length_nil] at hle
      omega
    · exact ⟨hwhole, hpieces _ rfl⟩

end Cipher

end RecordLog
