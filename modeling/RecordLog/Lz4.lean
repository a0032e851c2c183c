import RecordLog.Lz4.Search
import RecordLog.Transform

/-!
# LZ4 as a compressor
-/

namespace RecordLog

def Compressor.lz4 : Compressor where
  name := "Lz4"
  encode x := .ok (Lz4.encode x)
  decode x := (Lz4.decode x).mapError fun fault => .transform s!"lz4 decompress: {fault.message}"

end RecordLog
