import RecordLog.Background
import RecordLog.Scan
import RecordLog.Writer

/-!
# Commands and replies

What can be asked of a session on one log folder, and what it replies. Readers, scans and tokens
go by names that the caller chooses.
-/

namespace RecordLog

abbrev Payloads := List Bytes

structure FileName where
  outside : Bool
  name : String
  deriving Repr, DecidableEq

inductive WriterCommand where
  | append (data : Bytes)
  | appendMany (payloads : Payloads)
  | seal
  | checkpoint
  | observeKey (size : Nat)
  deriving Repr, DecidableEq

inductive ReaderCommand where
  | stop
  | chunks
  | scan (start : Nat)
  | startScan (id : String) (start : Nat)
  | startAsync (id : String) (start depth : Nat) (token : Option String)
  | keep (id : String)
  deriving Repr, DecidableEq

inductive AsyncCommand where
  | recv (limit : Option Nat)
  | cancel
  | isFinished
  | finish
  | drop
  deriving Repr, DecidableEq

inductive BufferCommand where
  | create (cfg : Config) (start : Nat)
  | resume (cfg : Config) (state : BufferState)
  | fits (size : Nat)
  | append (operation : String) (data : Bytes)
  | endRecord
  | flush
  | seal
  | state
  | drop

inductive StoreCommand where
  | open
  | close
  | drop
  | info
  | failCommits (on : Bool)
  | transact (h : Hook) (p : Program Unit)
  | putRaw (key : String) (value : Bytes)
  | putRawChunk (key : Nat) (value : Bytes)
  | getRaw (key : String)
  | getRawChunk (key : Nat)
  | getRawCheckpoint (key : String)

inductive DiskCommand where
  | list
  | read (f : FileName)
  | replace (f : FileName) (data : Bytes)
  | patch (f : FileName) (offset : Nat) (mask : Bytes)
  | truncate (f : FileName) (size : Nat)
  | remove (f : FileName)
  | removeFolder (f : FileName)
  | createFolder (f : FileName)
  | copy (f g : FileName)
  | makeFull (f : FileName)
  | folderAway
  | folderBack
  deriving Repr, DecidableEq

inductive Command where
  | open (cfg : Config) (shared : Bool)
  | close
  | drop
  | state
  | salt
  | write (c : WriterCommand)
  | putCheckpoint (name : String) (pos : Nat)
  | getCheckpoint (name : String)
  /-- Through a kept reader, or through a new one of the writer. -/
  | read (reader : Option String) (c : ReaderCommand)
  | dropReader (id : String)
  | nextOfScan (id : String) (limit : Option Nat)
  | dropScan (id : String)
  | async (id : String) (c : AsyncCommand)
  | cancelToken (token : String)
  | store (c : StoreCommand)
  | fault (h : Hook) (f : Option Fault)
  | calls
  | buffer (c : BufferCommand)
  | disk (c : DiskCommand)

abbrev WriterState := BufferState × Stats

structure BufferReport where
  state : BufferState
  /-- What the file is called in the folder it is in. -/
  fileName : Option String
  /-- Length of the file under the buffer's name. -/
  fileSize : Option Nat
  deriving Repr, DecidableEq

inductive Rest where
  /-- It has more to give. -/
  | more
  | done
  /-- It failed; the flag tells whether it gave nothing more when asked again. -/
  | failed (e : Error) (ended : Bool)
  deriving Repr, DecidableEq

inductive Reply where
  | nothing
  /-- The command names something that is not there. -/
  | unknown
  | stopped (s : Stop)
  | written (value : Option Nat) (failure : Option Stop) (state : Option WriterState)
  | appended (ends : List Nat) (failure : Option Stop) (state : Option WriterState)
  | state (s : Option WriterState)
  | salt (s : UInt64)
  | position (pos : Option Nat)
  | logEnd (pos : Nat)
  | chunks (l : List (Chunk × Bool))
  | scanned (stop : Nat) (records : List Record) (rest : Rest)
  | received (records : List Record) (rest : Rest)
  | token (cancelled : Bool) (failure : Option Error)
  | flag (b : Bool)
  | answers (l : List Answered) (failure : Option Stop)
  | memoryInfo (chunks : Nat)
  | fileInfo (isOpen : Bool)
  | rawValue (v : Option Bytes)
  | calls (l : List String)
  | buffer (chunk : Option Chunk) (failure : Option Stop) (report : BufferReport)
  | files (l : List (String × Option Nat))
  | missing
  | content (data : Bytes)
  | removed (b : Bool)

end RecordLog
