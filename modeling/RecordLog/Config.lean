import RecordLog.ChaCha
import RecordLog.Disk
import RecordLog.Lz4

/-!
# Settings

How a log is kept: in which folder, in segments of what size, and through which transforms.
-/

namespace RecordLog

structure Config where
  folder : String := "./data/cellar"
  /-- Size beyond which a segment admits only a first record. -/
  capacity : Nat := 64 * 1024 * 1024
  /-- Whether flushing forces bytes onto the medium. -/
  sync : Bool := true
  compressor : Compressor := .lz4
  cipher : Cipher := .identity

namespace Config

def path (c : Config) : Path := Path.ofString c.folder

def locate (c : Config) (name : String) : Path := Path.join c.path name

end Config

end RecordLog
