import RecordLog.Buffer
import RecordLog.Reader

/-!
# The writer

A log has one writer. It appends records to the live segment; when a record does not fit, the
segment is sealed and a new one starts where it ended. A checkpoint makes what was appended
durable: reopening a log goes back to the last checkpoint or the last sealed segment, whichever
came later. After each record the writer moves the watermark that its readers go by.
-/

namespace RecordLog

structure Writer where
  config : Config
  store : StoreId
  mark : MarkId
  buffer : Buffer
  stats : Stats

/-- An operation of a writer. What it did before it stopped remains done, to the world and to the
writer. -/
abbrev Writing := EStateM Stop (Writer × World)

namespace Writing

variable {α : Type}

def onWorld (op : Op α) : Writing α := fun (writer, w) =>
  match op w with
  | .ok a w => .ok a (writer, w)
  | .error stop w => .error stop (writer, w)

def writer : Writing Writer := do return (← get).1

def setBuffer (buffer : Buffer) : Writing Unit :=
  modify fun (writer, w) => ({ writer with buffer }, w)

def publish : Writing Unit := modify fun (writer, w) =>
  (writer, { w with marks := w.marks.set writer.mark writer.buffer.watermark })

end Writing

namespace Writer

open Writing

/-- Opens a log over an index: where the index says it was left, or empty at position 0. -/
def resume (config : Config) (store : StoreId) : Op Writer := do
  let (buffer, stats) ← Store.within store fun tables => do
    let (stats, tables) ← Op.ofExcept (tables.answer .stats)
    let (state, tables) ← Op.ofExcept (tables.answer .buffer)
    match state with
    | some state => return ((← Buffer.resume config state, stats.getD {}), tables)
    | none =>
      let buffer ← Buffer.create config 0
      let (_, tables) ← Op.ofExcept (tables.answer (.putBuffer buffer.state))
      return ((buffer, stats.getD {}), tables)
  let mark := (← get).marks.length
  modify fun w => { w with marks := w.marks ++ [buffer.watermark] }
  pure ⟨config, store, mark, buffer, stats⟩

def openFolder (config : Config) : Op Writer := do
  Op.makeFolders "create cellar folder" config.path
  resume config (← Store.openFile config.path)

/-- Makes a chunk of the live segment and starts the next one. The chunk counts from the moment
the index has it together with the new segment. -/
def rotate : Writing Unit := do
  let w ← writer
  onWorld (w.buffer.flush w.config)
  let chunk ← onWorld (w.buffer.sealed w.config)
  let next ← onWorld (Buffer.create w.config chunk.stop)
  onWorld <| Store.update w.store do
    Program.request (.addChunk chunk.start chunk)
    Program.request (.putBuffer next.state)
  setBuffer next
  publish
  onWorld (Op.discard (w.config.locate w.buffer.file))

def put (operation : String) (data : Bytes) : Writing Unit := do
  let w ← writer
  setBuffer (← onWorld (w.buffer.append w.config operation data))

def writeRecord (data : Bytes) : Writing Nat := do
  let mark := (← writer).buffer.pos
  put "write len prefix" (Varint.encode data.length)
  try
    put "write body" data
  catch
    | .error e =>
      setBuffer (← onWorld ((← writer).buffer.rewind mark))
      throw (.error e)
    | .crash => throw .crash
  modify fun (writer, w) =>
    ({ writer with
        buffer := writer.buffer.endRecord
        stats := writer.stats.observeValue data.length }, w)
  publish
  return (← writer).buffer.stop

/-- Appends a record and tells where the log ends then. An error leaves the log as it was, but
for the segment that may have been sealed to make room. -/
def append (data : Bytes) : Writing Nat := do
  unless (← writer).buffer.fits (Record.encode data).length do rotate
  writeRecord data

def sealLive : Writing Unit := do
  unless (← writer).buffer.pos = 0 do rotate

def checkpoint : Writing Nat := do
  let w ← writer
  onWorld (w.buffer.flush w.config)
  onWorld <| Store.update w.store do
    Program.request (.putBuffer w.buffer.state)
    Program.request (.putStats w.stats)
  return w.buffer.stop

def observeKey (size : Nat) : Writing Unit := modify fun (writer, w) =>
  ({ writer with stats := writer.stats.observeKey size }, w)

def putCheckpoint (w : Writer) (name : String) (pos : Nat) : Op Unit :=
  Store.update w.store (Program.request (.putCheckpoint name pos))

def getCheckpoint (w : Writer) (name : String) : Op (Option Nat) :=
  Store.read w.store (Program.request (.checkpoint name))

def reader (w : Writer) : Reader := ⟨w.config, w.store, w.mark⟩

/-- Gives the index back. What was not made durable before is not kept. -/
def close (w : Writer) : Op Unit := Store.close w.store

end Writer

end RecordLog
