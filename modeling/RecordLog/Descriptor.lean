import RecordLog.Transform

/-!
# Descriptors

The log is a row of segments. Sealed ones are chunks, each an immutable file; the last one is
live. A `BufferState` describes the live segment and a `Chunk` a sealed one, both by the position
in the log where they start. File names are made from that position, so no two segments share one.
-/

namespace RecordLog

/-- A position in at least twelve decimal digits. -/
def padded (pos : Nat) : String :=
  let digits := toString pos
  "".pushn '0' (12 - digits.length) ++ digits

def bufferFileName (start : Nat) : String := padded start

def chunkFileName (start : Nat) : String := padded start ++ ".chunk"

/-- Where a chunk is written before it takes its name. -/
def draftFileName (start : Nat) : String := padded start ++ ".tmp"

def indexFileName : String := "meta.redb"

/-- The live segment as it is recorded in the index. -/
structure BufferState where
  start : Nat
  /-- Bytes written, counted from `start`. -/
  pos : Nat
  /-- Size beyond which only a first record is admitted. -/
  capacity : Nat
  records : Nat
  file : String
  salt : UInt64
  deriving Repr, DecidableEq

namespace BufferState

def fresh (start capacity : Nat) (salt : UInt64) : BufferState :=
  ⟨start, 0, capacity, 0, bufferFileName start, salt⟩

def id (b : BufferState) : SegmentId := ⟨b.start, b.salt⟩

def stop (b : BufferState) : Nat := b.start + b.pos

/-- Whether `n` more bytes are admitted; the first bytes of a segment always are. -/
def fits (b : BufferState) (n : Nat) : Bool := b.pos == 0 || decide (b.pos + n ≤ b.capacity)

end BufferState

/-- A sealed segment as it is recorded in the index. -/
structure Chunk where
  file : String
  start : Nat
  /-- Length of the plain content. -/
  size : Nat
  /-- Length of the file. -/
  diskSize : Nat
  records : Nat
  deriving Repr, DecidableEq

namespace Chunk

def stop (c : Chunk) : Nat := c.start + c.size

end Chunk

structure Stats where
  maxKey : Nat := 0
  maxValue : Nat := 0
  deriving Repr, DecidableEq, Inhabited

namespace Stats

def observeValue (s : Stats) (size : Nat) : Stats := { s with maxValue := max s.maxValue size }

def observeKey (s : Stats) (size : Nat) : Stats := { s with maxKey := max s.maxKey size }

end Stats

/-- How far the live segment can be read. -/
structure Watermark where
  start : Nat := 0
  pos : Nat := 0
  salt : UInt64 := 0
  deriving Repr, DecidableEq, Inhabited

namespace Watermark

def stop (m : Watermark) : Nat := m.start + m.pos

def id (m : Watermark) : SegmentId := ⟨m.start, m.salt⟩

end Watermark

def BufferState.watermark (b : BufferState) : Watermark := ⟨b.start, b.pos, b.salt⟩

end RecordLog
