import RecordLog.Artifact

/-!
# The live segment

A `Buffer` is the live segment together with its open file. Bytes are appended through the
cipher at the offset where they come to lie, and the file is as long as what was appended.
Sealing reads the file back through the same handle, so it does not need the file's name, and
puts the head back behind the last byte.

Each operation returns the buffer as it is afterwards; one that stops leaves the buffer it was
given in force.
-/

namespace RecordLog

structure Buffer extends BufferState where
  handle : FileId
  head : HeadId
  deriving Repr, DecidableEq

namespace Buffer

def state (b : Buffer) : BufferState := b.toBufferState

/-- Opens the file of a live segment. Bytes beyond the described ones were never promised to
anyone and are cut off; fewer bytes than described cannot be made up for. -/
def resume (cfg : Config) (s : BufferState) : Op Buffer := do
  Op.passDisk .create "open buffer"
  let id ← Op.onDisk "open buffer" (·.openOrCreate (cfg.locate s.file))
  let size := ((← get).disk.content id).size
  if size < s.pos then
    Op.fail (.corrupt s.file s!"file holds {size} bytes, descriptor expects {s.pos}")
  if s.pos < size then
    Op.changeDisk "truncate buffer" (·.setSize id s.pos)
  pure ⟨s, id, ← Op.addHead s.pos⟩

def create (cfg : Config) (start : Nat) : Op Buffer := do
  resume cfg (.fresh start cfg.capacity (← Op.drawSalt))

/-- Cuts the segment back to an earlier length. A file that cannot be cut is left as it is. -/
def rewind (b : Buffer) (pos : Nat) : Op Buffer := do
  let pos := min pos b.pos
  modify fun w =>
    match w.disk.setSize b.handle pos with
    | .ok disk => { w with disk, heads := w.heads.set b.head pos }
    | .error _ => w
  pure { b with pos }

/-- Appends bytes: all of them or none. -/
def append (cfg : Config) (b : Buffer) (operation : String) (data : Bytes) : Op Buffer := do
  let encoded ← Op.encodeAt cfg.cipher b.id b.pos data
  try
    Op.writeFile operation b.handle b.head encoded
  catch
    | .error e =>
      let _ ← b.rewind b.pos
      Op.fail e
    | .crash => throw .crash
  Op.trace (.wrote b.id b.pos data)
  pure { b with pos := b.pos + data.length }

def endRecord (b : Buffer) : Buffer := { b with records := b.records + 1 }

def flush (cfg : Config) (b : Buffer) : Op Unit := do
  if cfg.sync then Op.lookAtDisk "sync buffer" (·.sync b.handle)

/-- Everything appended so far, as it was before the cipher. -/
def content (cfg : Config) (b : Buffer) : Op Bytes := do
  Op.seek b.head 0
  let bytes ← Op.readFile b.handle b.head b.pos
  Op.seek b.head b.pos
  if bytes.length = b.pos then Op.decodeAt cfg.cipher b.id 0 bytes
  else Op.fail (.corrupt b.file s!"read {bytes.length} bytes, expected {b.pos}")

def sealed (cfg : Config) (b : Buffer) : Op Chunk := do
  let content ← b.content cfg
  let compressed ← Op.compress cfg.compressor content
  let encrypted ← Op.encrypt cfg.cipher compressed
  let diskSize ← Chunk.persist cfg b.start encrypted
  pure ⟨chunkFileName b.start, b.start, b.pos, diskSize, b.records⟩

end Buffer

end RecordLog
