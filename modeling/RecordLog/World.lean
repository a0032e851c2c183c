import RecordLog.Disk

/-!
# The world of a log

A log works on a disk, through files and indexes that are open, and on watermarks its readers
share. It draws salts and nonces, and calls compressors, ciphers and indexes. All of that is a `World`, and an
`Op` is an operation on it that may stop: what it did before it stopped remains done.

A world keeps a trace of the calls made in it, and it can be told to let calls fail from some
point on. Without faults, a call fails only for a reason of its own.
-/

namespace RecordLog

inductive Hook where
  | compress
  | decompress
  | encrypt
  | decrypt
  | encodeAt
  | decodeAt
  | read
  | update
  | create
  | write
  | rename
  | remove
  deriving Repr, DecidableEq

def Hook.name : Hook → String
  | .compress => "compress"
  | .decompress => "decompress"
  | .encrypt => "encrypt"
  | .decrypt => "decrypt"
  | .encodeAt => "encode_at"
  | .decodeAt => "decode_at"
  | .read => "read"
  | .update => "update"
  | .create => "create"
  | .write => "write"
  | .rename => "rename"
  | .remove => "remove"

/-- Lets `after` more calls pass and fails every later one. -/
structure Fault where
  after : Nat
  /-- Whether a failing call never comes back instead of reporting an error. -/
  crash : Bool := false
  /-- Bytes that a failing write still puts into the file. -/
  kept : Nat := 0
  deriving Repr, DecidableEq

inductive Event where
  | compress (data : Bytes)
  | decompress (data : Bytes)
  | encrypt (data : Bytes)
  | decrypt (data : Bytes)
  | encodeAt (id : SegmentId) (offset : Nat) (data : Bytes)
  | decodeAt (id : SegmentId) (offset : Nat) (data : Bytes)
  | update
  /-- Plain bytes whose encoded form reached a live file. -/
  | wrote (id : SegmentId) (offset : Nat) (data : Bytes)
  deriving Repr, DecidableEq

def Event.text? : Event → Option String
  | .compress data => some s!"compress {data.length}"
  | .decompress data => some s!"decompress {data.length}"
  | .encrypt data => some s!"encrypt {data.length}"
  | .decrypt data => some s!"decrypt {data.length}"
  | .encodeAt id offset data => some s!"encode_at {id.start} {offset} {data.length}"
  | .decodeAt id offset data => some s!"decode_at {id.start} {offset} {data.length}"
  | .update => some "update"
  | .wrote _ _ _ => none

inductive Medium where
  | memory (tables : Catalog)
  | file (id : FileId)
  deriving Repr, DecidableEq

structure Store where
  medium : Medium
  closed : Bool := false
  /-- Whether a unit of work on it crashed while it held the tables. -/
  poisoned : Bool := false
  /-- Whether it refuses to commit. -/
  failCommits : Bool := false
  /-- Whether its calls are traced and can be made to fail. -/
  watched : Bool := true
  deriving Repr, DecidableEq

abbrev StoreId := Nat

abbrev MarkId := Nat

/-- Open files are told apart by number too: each has a head of its own. -/
abbrev HeadId := Nat

structure World where
  disk : Disk := {}
  stores : List Store := []
  /-- The watermarks of all writers there have been. -/
  marks : List Watermark := []
  /-- Where each open file is read and written next. -/
  heads : List Nat := []
  faults : Table Hook Fault := {}
  events : Array Event := #[]
  /-- The salts that will be drawn, in order. -/
  salts : Nat → UInt64
  saltsDrawn : Nat := 0
  nonces : Nat → Nonce
  noncesDrawn : Nat := 0

abbrev Op := EStateM Stop World

namespace Op

variable {α : Type}

def fail (e : Error) : Op α := throw (.error e)

def ofExcept : Except Error α → Op α
  | .ok a => pure a
  | .error e => fail e

def trace (e : Event) : Op Unit := modify fun w => { w with events := w.events.push e }

/-- The fault that strikes a call, if one does; the call counts against it in any case. -/
def strike (h : Hook) : Op (Option Fault) := fun w =>
  match w.faults.get? h with
  | none => .ok none w
  | some f =>
    match f.after with
    | 0 => .ok (some f) w
    | after + 1 => .ok none { w with faults := w.faults.insert h { f with after } }

def struck (f : Fault) (e : Error) : Op α := throw (if f.crash then .crash else .error e)

def pass (h : Hook) : Op Unit := do
  if let some f ← strike h then
    struck f (.transform s!"injected {h.name} failure")

def onDisk (operation : String) (f : Disk → Except IoCause (α × Disk)) : Op α := fun w =>
  match f w.disk with
  | .ok (a, disk) => .ok a { w with disk }
  | .error cause => .error (.error (.io operation cause)) w

def lookAtDisk (operation : String) (f : Disk → Except IoCause α) : Op α :=
  onDisk operation fun d => (f d).map (·, d)

def changeDisk (operation : String) (f : Disk → Except IoCause Disk) : Op Unit :=
  onDisk operation fun d => (f d).map ((), ·)

def makeFolders (operation : String) (p : Path) : Op Unit := fun w =>
  match w.disk.createFolders p with
  | (none, disk) => .ok () { w with disk }
  | (some cause, disk) => .error (.error (.io operation cause)) { w with disk }

def passDisk (h : Hook) (operation : String) : Op Unit := do
  if let some f ← strike h then
    struck f (.io operation IoCause.inputOutput)

def addHead (offset : Nat) : Op HeadId := fun w =>
  .ok w.heads.length { w with heads := w.heads ++ [offset] }

def seek (head : HeadId) (offset : Nat) : Op Unit := modify fun w =>
  { w with heads := w.heads.set head offset }

def offsetOf (head : HeadId) : Op Nat := return (← get).heads.getD head 0

def readFile (id : FileId) (head : HeadId) (count : Nat) : Op Bytes := do
  let offset ← offsetOf head
  let bytes := ((← get).disk.content id).range offset count
  seek head (offset + bytes.length)
  pure bytes

def putBytes (operation : String) (id : FileId) (head : HeadId) (data : Bytes) : Op Unit := do
  let offset ← offsetOf head
  changeDisk operation fun d => d.write id offset data
  seek head (offset + data.length)

/-- Writes to an open file. A write that a fault strikes may have put some bytes there. -/
def writeFile (operation : String) (id : FileId) (head : HeadId) (data : Bytes) : Op Unit := do
  if let some f ← strike .write then
    putBytes operation id head (data.take f.kept)
    struck f (.io operation IoCause.inputOutput)
  putBytes operation id head data

def discard (p : Path) : Op Unit := do
  match ← strike .remove with
  | some f => if f.crash then throw .crash
  | none => modify fun w =>
    match w.disk.remove p with
    | .ok disk => { w with disk }
    | .error _ => w

def drawSalt : Op UInt64 := fun w =>
  .ok (w.salts w.saltsDrawn) { w with saltsDrawn := w.saltsDrawn + 1 }

def drawNonce : Op Nonce := fun w =>
  .ok (w.nonces w.noncesDrawn) { w with noncesDrawn := w.noncesDrawn + 1 }

def compress (c : Compressor) (data : Bytes) : Op Bytes := do
  trace (.compress data)
  pass .compress
  ofExcept (c.encode data)

def decompress (c : Compressor) (data : Bytes) : Op Bytes := do
  trace (.decompress data)
  pass .decompress
  ofExcept (c.decode data)

def encrypt (c : Cipher) (data : Bytes) : Op Bytes := do
  trace (.encrypt data)
  pass .encrypt
  ofExcept (c.encode (← drawNonce) data)

def decrypt (c : Cipher) (data : Bytes) : Op Bytes := do
  trace (.decrypt data)
  pass .decrypt
  ofExcept (c.decode data)

def encodeAt (c : Cipher) (id : SegmentId) (offset : Nat) (data : Bytes) : Op Bytes := do
  trace (.encodeAt id offset data)
  pass .encodeAt
  ofExcept (c.encodeAt id offset data)

def decodeAt (c : Cipher) (id : SegmentId) (offset : Nat) (data : Bytes) : Op Bytes := do
  trace (.decodeAt id offset data)
  pass .decodeAt
  ofExcept (c.decodeAt id offset data)

/-- Subtraction of a position from one that must not lie before it. -/
def difference (a b : Nat) : Op Nat := if b ≤ a then pure (a - b) else throw .crash

def frontOf (bs : Bytes) (count : Nat) : Op Bytes :=
  if count ≤ bs.length then pure (bs.take count) else throw .crash

end Op

end RecordLog
