import RecordLog.Base128
import RecordLog.Descriptor

/-!
# Stored values

Descriptors are kept in the index as byte strings: the fields one after another, numbers in base
128 and text as its length and its UTF-8 bytes. Reading takes the fields back in the same order
and ignores what follows the last one.
-/

namespace RecordLog.Stored

inductive Fault where
  | ended
  | badText
  | badNumber
  deriving Repr, DecidableEq

def Fault.message : Fault → String
  | .ended => "Hit the end of buffer, expected more data"
  | .badText => "Tried to parse invalid utf-8"
  | .badNumber => "Found a varint that didn't terminate. Is the usize too big for this platform?"

def writeNumber (n : Nat) : Bytes := Base128.encode n

def writeText (s : String) : Bytes :=
  let bytes := s.toUTF8.toList
  writeNumber bytes.length ++ bytes

abbrev Reader (α : Type) := StateT Bytes (Except Fault) α

def number : Reader Nat := fun bs =>
  match Base128.read bs with
  | .value n used => .ok (n, bs.drop used)
  | .short => .error .ended
  | .overlong => .error .badNumber

def take (count : Nat) : Reader Bytes := fun bs =>
  let front := bs.take count
  if front.length < count then .error .ended else .ok (front, bs.drop count)

def text : Reader String := do
  let bytes ← take (← number)
  match String.fromUTF8? bytes.toByteArray with
  | some s => pure s
  | none => throw .badText

def ofBuffer (b : BufferState) : Bytes :=
  writeNumber b.start ++ writeNumber b.pos ++ writeNumber b.capacity ++ writeNumber b.records ++
    writeText b.file ++ writeNumber b.salt.toNat

def buffer : Reader BufferState := do
  let start ← number
  let pos ← number
  let capacity ← number
  let records ← number
  let file ← text
  let salt ← number
  pure ⟨start, pos, capacity, records, file, salt.toUInt64⟩

def ofChunk (c : Chunk) : Bytes :=
  writeText c.file ++ writeNumber c.start ++ writeNumber c.size ++ writeNumber c.diskSize ++
    writeNumber c.records

def chunk : Reader Chunk := do
  let file ← text
  let start ← number
  let size ← number
  let diskSize ← number
  let records ← number
  pure ⟨file, start, size, diskSize, records⟩

def ofStats (s : Stats) : Bytes := writeNumber s.maxKey ++ writeNumber s.maxValue

def stats : Reader Stats := do
  let maxKey ← number
  let maxValue ← number
  pure ⟨maxKey, maxValue⟩

def decode {α : Type} (reader : Reader α) (bs : Bytes) : Except Error α :=
  match reader bs with
  | .ok (a, _) => .ok a
  | .error fault => .error (.deserialization fault.message)

end RecordLog.Stored
