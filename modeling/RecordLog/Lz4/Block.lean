import RecordLog.Bytes

/-!
# The LZ4 block format

A block is a run of sequences: literal bytes, then a match that repeats bytes from a stated
distance back. The last sequence has literals only. A token byte holds both lengths, four bits
each; a length that does not fit goes on in bytes of 255 and one smaller byte. In front of the
block stands the length of the content in four bytes.

Decoding checks every length and distance against the input, the content so far and the stated
length, and names what is wrong with a bad block.
-/

namespace RecordLog.Lz4

/-- Literal bytes followed by a match of at least four bytes. -/
structure Sequence where
  literals : Bytes
  offset : Nat
  matchLength : Nat
  deriving Repr, DecidableEq

def minMatch : Nat := 4

/-- The part of a length that goes on after the token. -/
def lengthTail (n : Nat) : Bytes :=
  if n < 15 then [] else List.replicate ((n - 15) / 255) 255 ++ [((n - 15) % 255).toUInt8]

def token (literals matchExtra : Nat) : UInt8 :=
  (min literals 15 * 16 + min matchExtra 15).toUInt8

def Sequence.encode (s : Sequence) : Bytes :=
  let extra := s.matchLength - minMatch
  token s.literals.length extra ::
    (lengthTail s.literals.length ++ s.literals ++ Bytes.ofNat 2 s.offset ++ lengthTail extra)

def encodeLast (literals : Bytes) : Bytes :=
  token literals.length 0 :: (lengthTail literals.length ++ literals)

def encodeBlock (size : Nat) (sequences : List Sequence) (last : Bytes) : Bytes :=
  Bytes.ofNat 4 size ++ sequences.flatMap Sequence.encode ++ encodeLast last

inductive Fault where
  | inputEnded
  | literalsBeyondInput
  | outputTooSmall (actual expected : Nat)
  | zeroOffset
  | offsetBeforeStart
  deriving Repr, DecidableEq

def Fault.message : Fault → String
  | .inputEnded => "expected another byte, found none"
  | .literalsBeyondInput => "literal is out of bounds of the input"
  | .outputTooSmall actual expected =>
    s!"provided output is too small for the decompressed data, actual {actual}, expected {expected}"
  | .zeroOffset => "0 is not a valid match offset"
  | .offsetBeforeStart => "the offset to copy is not contained in the decompressed buffer"

/-- Goes on with a length whose token bits were all set; otherwise leaves it as it is. -/
def readTail (bs : Bytes) : Except Fault (Nat × Bytes) :=
  match bs with
  | [] => .error .inputEnded
  | b :: rest =>
    if b = 255 then (readTail rest).map fun (n, rest) => (n + 255, rest) else .ok (b.toNat, rest)

def readLength (bits : Nat) (bs : Bytes) : Except Fault (Nat × Bytes) :=
  if bits < 15 then .ok (bits, bs) else (readTail bs).map fun (n, rest) => (n + 15, rest)

/-- Repeats `count` bytes from `offset` back; the bytes just written may be among them. -/
def copyMatch (out : Array UInt8) (offset : Nat) : (count : Nat) → Array UInt8
  | 0 => out
  | count + 1 => copyMatch (out.push (out.getD (out.size - offset) 0)) offset count

theorem length_le_of_readTail {bs rest : Bytes} {n : Nat} (h : readTail bs = .ok (n, rest)) :
    rest.length ≤ bs.length := by
  induction bs generalizing n rest with
  | nil => simp [readTail] at h
  | cons b bs ih =>
    rw [readTail] at h
    split at h
    · cases hr : readTail bs with
      | error e => simp [hr, Except.map] at h
      | ok p =>
        obtain ⟨k, tail⟩ := p
        simp only [hr, Except.map, Except.ok.injEq, Prod.mk.injEq] at h
        have := ih hr
        simp only [List.length_cons, ← h.2]
        omega
    · simp only [Except.ok.injEq, Prod.mk.injEq] at h
      simp [← h.2]

theorem length_le_of_readLength {bits : Nat} {bs rest : Bytes} {n : Nat}
    (h : readLength bits bs = .ok (n, rest)) : rest.length ≤ bs.length := by
  unfold readLength at h
  split at h
  · simp only [Except.ok.injEq, Prod.mk.injEq] at h
    simp [← h.2]
  · cases hr : readTail bs with
    | error e => simp [hr, Except.map] at h
    | ok p =>
      simp only [hr, Except.map, Except.ok.injEq, Prod.mk.injEq] at h
      rw [← h.2]
      exact length_le_of_readTail (n := p.1) hr

def takeLiterals (capacity : Nat) (out : Array UInt8) (count : Nat) (bs : Bytes) :
    Except Fault (Array UInt8 × Bytes) :=
  let literals := bs.take count
  if literals.length < count then .error .literalsBeyondInput
  else if capacity < out.size + count then .error (.outputTooSmall capacity (out.size + count))
  else .ok (out ++ literals, bs.drop count)

theorem length_le_of_takeLiterals {capacity count : Nat} {out out' : Array UInt8} {bs rest : Bytes}
    (h : takeLiterals capacity out count bs = .ok (out', rest)) : rest.length ≤ bs.length := by
  simp only [takeLiterals] at h
  split at h
  · simp at h
  split at h
  · simp at h
  simp only [Except.ok.injEq, Prod.mk.injEq] at h
  simp [← h.2]

theorem length_lt_of_sequence {capacity bits count matchBits extra : Nat} {out out' : Array UInt8}
    {bs afterLength afterOffset rest : Bytes} {lo hi : UInt8}
    (hl : readLength bits bs = .ok (count, afterLength))
    (ht : takeLiterals capacity out count afterLength = .ok (out', lo :: hi :: afterOffset))
    (hm : readLength matchBits afterOffset = .ok (extra, rest)) : rest.length < bs.length + 1 := by
  have h1 := length_le_of_readLength hl
  have h2 := length_le_of_takeLiterals ht
  have h3 := length_le_of_readLength hm
  simp only [List.length_cons] at h2
  omega

/-- Decodes a block behind what is already decoded, never beyond `capacity` bytes. -/
def decodeBlock (capacity : Nat) (out : Array UInt8) (bs : Bytes) : Except Fault (Array UInt8) :=
  match bs with
  | [] => .error .inputEnded
  | t :: bs =>
    match hl : readLength (t.toNat / 16) bs with
    | .error fault => .error fault
    | .ok (count, afterLength) =>
      match ht : takeLiterals capacity out count afterLength with
      | .error fault => .error fault
      | .ok (out, []) => .ok out
      | .ok (_, [_]) => .error .inputEnded
      | .ok (out, lo :: hi :: afterOffset) =>
        let offset := lo.toNat + 256 * hi.toNat
        if offset = 0 then .error .zeroOffset
        else
          match hm : readLength (t.toNat % 16) afterOffset with
          | .error fault => .error fault
          | .ok (extra, rest) =>
            let count := extra + minMatch
            if capacity < out.size + count then
              .error (.outputTooSmall capacity (out.size + count))
            else if out.size < offset then .error .offsetBeforeStart
            else
              have : rest.length < bs.length + 1 := length_lt_of_sequence hl ht hm
              decodeBlock capacity (copyMatch out offset count) rest
termination_by bs.length
decreasing_by assumption

def decode (bs : Bytes) : Except Fault Bytes :=
  if bs.length < 4 then .error .inputEnded
  else (decodeBlock (Bytes.toNat (bs.take 4)) #[] (bs.drop 4)).map (·.toList)

end RecordLog.Lz4
