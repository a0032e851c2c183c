import RecordLog.Artifact
import RecordLog.Record
import RecordLog.Store

/-!
# Reading the log

A reader sees the log up to the watermark of its writer. A `Plan` lists the segments to read for a
start position: the watermark is taken first and the chunks are listed afterwards, so everything
below the watermark is in one of the listed chunks or in the live segment. If the live segment was
sealed in between, the listing ends with its chunk, and that is read up to the watermark instead.
If it is sealed later and its file is gone when its turn comes, the chunks are listed again.
-/

namespace RecordLog

structure Reader where
  config : Config
  store : StoreId
  mark : MarkId

inductive Source where
  | chunk (c : Chunk)
  | live (m : Watermark)
  deriving Repr, DecidableEq

structure Plan where
  start : Nat
  /-- Where the log ended when the plan was made. -/
  stop : Nat
  sources : List Source
  deriving Repr, DecidableEq

namespace Plan

/-- The segments that hold records from `start` up to the watermark. -/
def build (live : Watermark) (chunks : List Chunk) (start : Nat) : Plan :=
  let wanted := chunks.filter fun c => decide (start < c.stop) && decide (c.start < live.stop)
  let sealedSince := wanted.getLast?.any (·.start = live.start)
  let tail :=
    if !sealedSince && decide (start < live.stop) && decide (0 < live.pos) then [Source.live live]
    else []
  ⟨start, live.stop, wanted.map .chunk ++ tail⟩

end Plan

namespace Reader

def watermark (r : Reader) : Op Watermark := fun w => .ok (w.marks.getD r.mark {}) w

def chunks (r : Reader) : Op (List Chunk) := Store.read r.store (Program.request .chunks)

def stop (r : Reader) : Op Nat := return (← r.watermark).stop

def plan (r : Reader) (start : Nat) : Op Plan := do
  let live ← r.watermark
  return .build live (← r.chunks) start

/-- Opens a chunk up to a position. A chunk that reaches further may end within a record. -/
def openChunk (r : Reader) (c : Chunk) (stop : Nat) : Op Cursor := do
  let content ← c.load r.config
  let limit ← Op.difference (min stop c.stop) c.start
  let front ← Op.frontOf content limit
  pure {
    name := c.file
    segment := c.start
    pos := c.start
    rest := front
    lenient := limit < c.size }

def openLive (r : Reader) (m : Watermark) (start : Nat) : Op Cursor := do
  let name := bufferFileName m.start
  let offset := min (start - m.start) m.pos
  let entry ← Op.lookAtDisk "open live buffer" (·.find (r.config.locate name))
  let count ← Op.difference m.pos offset
  let bytes ← (match entry with
    | .folder => if count = 0 then pure [] else Op.fail (.io "read live buffer" .isDirectory)
    | .file id => do return ((← get).disk.content id).range offset count)
  let plain ← Op.decodeAt r.config.cipher m.id offset bytes
  pure {
    name
    segment := m.start
    pos := m.start + offset
    rest := plain
    lenient := true }

/-- Opens a planned segment. A live segment whose file is gone was sealed meanwhile, and its chunk
holds the same bytes. -/
def openSource (r : Reader) (start stop : Nat) : Source → Op Cursor
  | .chunk c => r.openChunk c stop
  | .live m => do
    try
      r.openLive m start
    catch
      | .error e =>
        if e.isMissing then
          match (← r.chunks).find? (·.start = m.start) with
          | some c => r.openChunk c stop
          | none => Op.fail e
        else Op.fail e
      | .crash => throw .crash

end Reader

namespace Cursor

def nextFrom (c : Cursor) (start : Nat) : Option (Except Error Record) × Cursor :=
  match h : c.next with
  | (some (.ok r), c') =>
    if r.start < start then
      have := rest_lt_of_next h
      c'.nextFrom start
    else (some (.ok r), c')
  | other => other
termination_by c.rest.length

end Cursor

end RecordLog
