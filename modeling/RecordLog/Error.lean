import RecordLog.Errno

/-!
# Errors

Every failure of the log is one of a fixed set of causes. `Error.message` gives the wording of
each, and `Error.isMissing` singles out the failures that report an absent file.
-/

namespace RecordLog

/-- Why a file operation failed: as the system numbers it, or in words of the caller's own. -/
inductive IoCause where
  | os (errno : Errno)
  /-- A NUL byte in a file name, which the system is never asked about. -/
  | nulInName
  | custom (missing : Bool) (text : String)
  deriving Repr, DecidableEq

namespace IoCause

def noEntry : IoCause := .os 2
def inputOutput : IoCause := .os 5
def busy : IoCause := .os 16
def alreadyExists : IoCause := .os 17
def notDirectory : IoCause := .os 20
def isDirectory : IoCause := .os 21
def invalid : IoCause := .os 22
def noSpace : IoCause := .os 28
def nameTooLong : IoCause := .os 36
def notEmpty : IoCause := .os 39

def message : IoCause → String
  | .os errno => s!"{Errno.text errno} (os error {errno})"
  | .nulInName => "file name contained an unexpected NUL byte"
  | .custom _ text => text

def isMissing : IoCause → Bool
  | .os errno => errno == 2
  | .nulInName => false
  | .custom missing _ => missing

end IoCause

inductive Error where
  /-- A file operation, named by what it was for. -/
  | io (operation : String) (cause : IoCause)
  /-- The index could not be opened or committed. -/
  | database (text : String)
  | transform (text : String)
  | serialization (text : String)
  | deserialization (text : String)
  /-- The index was closed before. -/
  | closed
  /-- The content of a segment does not decode as records. -/
  | corrupt (segment reason : String)
  /-- A holder of a lock never gave it back in order. -/
  | poisoned (lock : String)
  /-- A background task never finished in order. -/
  | task (text : String)
  deriving Repr, DecidableEq

namespace Error

def message : Error → String
  | .io operation cause => s!"I/O error during {operation}: {cause.message}"
  | .database text => s!"Database error: {text}"
  | .transform text => s!"Transform error: {text}"
  | .serialization text => s!"Serialization error: {text}"
  | .deserialization text => s!"Deserialization error: {text}"
  | .closed => "Metadata store is closed"
  | .corrupt segment reason => s!"Corrupt segment {segment}: {reason}"
  | .poisoned lock => s!"Lock poisoned: {lock}"
  | .task text => s!"Task failed: {text}"

def isMissing : Error → Bool
  | .io _ cause => cause.isMissing
  | _ => false

def hasCause : Error → Bool
  | .io _ _ => true
  | _ => false

end Error

end RecordLog
