import RecordLog.Config
import RecordLog.World

/-!
# Files of sealed segments

A sealed segment is one file, written under another name first and then renamed, so that the name
of a chunk never stands for half a file. Loading a chunk undoes the cipher and the compressor and
insists on the length that the index has for the content.
-/

namespace RecordLog.Chunk

def persist (cfg : Config) (start : Nat) (bytes : Bytes) : Op Nat := do
  let draft := cfg.locate (draftFileName start)
  Op.passDisk .create "create chunk"
  let id ← Op.onDisk "create chunk" fun d =>
    (d.openOrCreate draft).map fun (id, d) => (id, d.empty id)
  Op.writeFile "write chunk" id (← Op.addHead 0) bytes
  if cfg.sync then Op.lookAtDisk "sync chunk" (·.sync id)
  Op.passDisk .rename "rename chunk"
  Op.changeDisk "rename chunk" (·.rename draft (cfg.locate (chunkFileName start)))
  pure bytes.length

def load (cfg : Config) (c : Chunk) : Op Bytes := do
  let bytes ← Op.lookAtDisk "read chunk" (·.readAll (cfg.locate c.file))
  let compressed ← Op.decrypt cfg.cipher bytes
  let content ← Op.decompress cfg.compressor compressed
  if content.length = c.size then pure content
  else
    Op.fail (.corrupt c.file s!"decoded {content.length} bytes, index expects {c.size}")

end RecordLog.Chunk
