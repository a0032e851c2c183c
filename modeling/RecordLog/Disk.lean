import RecordLog.Index
import RecordLog.Path
import RecordLog.Sparse

/-!
# The disk

A disk has names and files. Names form a tree of folders; each name in it stands for a folder or
for a file. Files are apart from their names: whoever opened one keeps it when its name is
removed, replaced or moved with its folder. A file can be full, refusing every byte, and a file
can hold the tables of an index.

A path is followed part by part from the root, and each part but the last must be a folder that
is there: `gone/../x` fails where `gone` is missing. It leads to a folder or to a name in one,
which may be taken or not; a slash behind the name asks for a folder.
-/

namespace RecordLog

abbrev FileId := Nat

inductive Content where
  | bytes (b : Sparse)
  /-- The tables of an index, and as a mask what was changed in the file without the index. -/
  | tables (t : StoredTables) (damage : Sparse)
  /-- Refuses every byte. -/
  | full
  deriving Repr, DecidableEq

namespace Content

/-- No file of an index is shorter. -/
def indexSize : Nat := 1024 * 1024

def size : Content → Nat
  | .bytes b => b.size
  | .tables _ _ => indexSize
  | .full => 0

def range (offset count : Nat) : Content → Bytes
  | .bytes b => b.range offset count
  | .tables _ _ => []
  | .full => List.replicate count 0

def all : Content → Bytes
  | .bytes b => b.toBytes
  | .tables _ _ | .full => []

/-- Writes bytes over those from an offset on. What is written into the file of an index damages
it. -/
def write (offset : Nat) (data : Bytes) : Content → Except IoCause Content
  | .bytes b => .ok (.bytes (b.overlay offset data))
  | .tables t damage => .ok (.tables t (damage.overlay offset (data.map fun _ => 1)))
  | .full => if data = [] then .ok .full else .error IoCause.noSpace

/-- Cuts a file off or fills it up with zeros. An index that was cut off is none. -/
def setSize (size : Nat) : Content → Except IoCause Content
  | .bytes b => .ok (.bytes (b.resize size))
  | .tables t damage =>
    .ok (if indexSize ≤ size then .tables t damage else .bytes (Sparse.resize size []))
  | .full => .error IoCause.invalid

/-- Combines the bytes from an offset on with a mask. An index whose bytes were changed is one
again when they are changed back. -/
def combine (offset : Nat) (mask : Bytes) : Content → Content
  | .bytes b => .bytes (b.combine offset mask)
  | .tables t damage =>
    .tables t ((damage.resize (max damage.size (offset + mask.length))).combine offset mask)
  | .full => .full

def sync : Content → Except IoCause Unit
  | .bytes _ | .tables _ _ => .ok ()
  | .full => .error IoCause.invalid

/-- What is left of a file that is opened to be written anew. -/
def emptied : Content → Content
  | .bytes _ | .tables _ _ => .bytes []
  | .full => .full

end Content

inductive Entry where
  | file (id : FileId)
  | folder
  deriving Repr, DecidableEq

/-- Where something is in the tree: the names on the way down to it. -/
abbrev Place := List String

inductive Target where
  | folder (p : Place)
  /-- A name in a folder that is there, and whether a slash follows it. -/
  | name (p : Place) (name : String) (slashed : Bool)
  deriving Repr, DecidableEq

structure Disk where
  names : Table Place Entry := {}
  files : List Content := []
  deriving Repr, DecidableEq, Inhabited

namespace Disk

def lookUp (d : Disk) (p : Place) (name : String) : Except IoCause (Option Entry) :=
  if 255 < name.utf8ByteSize then .error IoCause.nameTooLong
  else .ok (d.names.get? (p ++ [name]))

theorem lookUp_of_short {d : Disk} {p : Place} {name : String} (h : name.utf8ByteSize ≤ 255) :
    d.lookUp p name = .ok (d.names.get? (p ++ [name])) :=
  if_neg (Nat.not_lt.2 h)

def into (d : Disk) (p : Place) (name : String) : Except IoCause Place := do
  match ← d.lookUp p name with
  | none => .error IoCause.noEntry
  | some (.file _) => .error IoCause.notDirectory
  | some .folder => .ok (p ++ [name])

/-- Follows a path from a folder on. Above the root is the root. -/
def follow (d : Disk) (p : Place) : Path → Except IoCause Target
  | [] => .ok (.folder p)
  | part :: rest =>
    if Path.Stays part then d.follow p rest
    else if part = ".." then d.follow p.dropLast rest
    else if rest.all (· = "") then .ok (.name p part !rest.isEmpty)
    else do d.follow (← d.into p part) rest

def descend (d : Disk) (p : Place) : Path → Except IoCause Place
  | [] => .ok p
  | part :: rest =>
    if Path.Stays part then d.descend p rest
    else if part = ".." then d.descend p.dropLast rest
    else do d.descend (← d.into p part) rest

/-- Refuses a path that is not even followed. -/
def check (p : Path) : Except IoCause Unit :=
  if p.hasNul then .error .nulInName
  else if p.tooLong then .error IoCause.nameTooLong
  else .ok ()

def target (d : Disk) (p : Path) : Except IoCause Target := do
  check p
  d.follow [] p

def enter (d : Disk) (p : Path) : Except IoCause Place := do
  check p
  d.descend [] p

theorem follow_append_plain {d : Disk} {p : Place} {folder : Path} {name : String}
    (h : Path.Plain name) :
    d.follow p (folder ++ [name]) = (d.descend p folder).map fun q => .name q name false := by
  induction folder generalizing p with
  | nil => simp [follow, descend, h.stays, h.up, Except.map]
  | cons part rest ih =>
    have hn : name ≠ "" := fun e => h.stays (.inl e)
    simp only [List.cons_append, follow, descend]
    split
    · exact ih
    split
    · exact ih
    · cases d.into p part with
      | error e => simp [hn, bind, Except.bind, Except.map]
      | ok q => simpa [hn, bind, Except.bind] using ih

theorem target_append_plain {d : Disk} {folder : Path} {name : String} (h : Path.Plain name)
    (hl : Path.tooLong (folder ++ [name]) = false) :
    d.target (folder ++ [name]) = (d.enter folder).map fun q => .name q name false := by
  have hn : Path.hasNul (folder ++ [name]) = folder.hasNul := by
    simp [Path.hasNul, h.nul]
  have hf := Path.tooLong_of_sublist (List.sublist_append_left ..) hl
  simp only [target, enter, check, hn, hl, hf]
  split
  · rfl
  · exact follow_append_plain h

def resolve (d : Disk) (p : Path) : Except IoCause (Place × Entry) := do
  match ← d.target p with
  | .folder q => .ok (q, .folder)
  | .name q name slashed =>
    match ← d.lookUp q name with
    | none => .error IoCause.noEntry
    | some (.file id) =>
      if slashed then .error IoCause.notDirectory else .ok (q ++ [name], .file id)
    | some .folder => .ok (q ++ [name], .folder)

def find (d : Disk) (p : Path) : Except IoCause Entry := (d.resolve p).map (·.2)

def content (d : Disk) (id : FileId) : Content := d.files.getD id (.bytes [])

def setContent (d : Disk) (id : FileId) (c : Content) : Disk := { d with files := d.files.set id c }

def create (d : Disk) (p : Place) (c : Content) : FileId × Disk :=
  (d.files.length, { names := d.names.insert p (.file d.files.length), files := d.files ++ [c] })

def openOrCreate (d : Disk) (p : Path) : Except IoCause (FileId × Disk) := do
  match ← d.target p with
  | .folder _ | .name _ _ true => .error IoCause.isDirectory
  | .name q name false =>
    match ← d.lookUp q name with
    | some .folder => .error IoCause.isDirectory
    | some (.file id) => .ok (id, d)
    | none => .ok (d.create (q ++ [name]) (.bytes []))

/-- Gives a name to a new file. A file that had the name loses it. -/
def replace (d : Disk) (p : Path) (c : Content) : Except IoCause Disk := do
  match ← d.target p with
  | .folder _ | .name _ _ true => .error IoCause.isDirectory
  | .name q name false =>
    match ← d.lookUp q name with
    | some .folder => .error IoCause.isDirectory
    | _ => .ok (d.create (q ++ [name]) c).2

def readAll (d : Disk) (p : Path) : Except IoCause Bytes := do
  match ← d.find p with
  | .folder => .error IoCause.isDirectory
  | .file id => .ok (d.content id).all

def write (d : Disk) (id : FileId) (offset : Nat) (data : Bytes) : Except IoCause Disk :=
  ((d.content id).write offset data).map (d.setContent id)

def setSize (d : Disk) (id : FileId) (size : Nat) : Except IoCause Disk :=
  ((d.content id).setSize size).map (d.setContent id)

def sync (d : Disk) (id : FileId) : Except IoCause Unit := (d.content id).sync

def empty (d : Disk) (id : FileId) : Disk := d.setContent id (d.content id).emptied

/-- Moves a file's name over another, whose file loses it. -/
def rename (d : Disk) (old new : Path) : Except IoCause Disk := do
  match ← d.resolve old, ← d.target new with
  | (_, .folder), _ | _, .folder _ => .error IoCause.isDirectory
  | _, .name _ _ true => .error IoCause.notDirectory
  | (p, .file id), .name q name false =>
    match ← d.lookUp q name with
    | some .folder => .error IoCause.isDirectory
    | _ => .ok { d with names := (d.names.erase p).insert (q ++ [name]) (.file id) }

def remove (d : Disk) (p : Path) : Except IoCause Disk := do
  match ← d.resolve p with
  | (_, .folder) => .error IoCause.isDirectory
  | (q, .file _) => .ok { d with names := d.names.erase q }

def createFolder (d : Disk) (p : Path) : Except IoCause Disk := do
  match ← d.target p with
  | .folder _ => .error IoCause.alreadyExists
  | .name q name _ =>
    match ← d.lookUp q name with
    | some _ => .error IoCause.alreadyExists
    | none => .ok { d with names := d.names.insert (q ++ [name]) .folder }

def ensureFolder (d : Disk) (p : Path) : Except IoCause Disk :=
  match d.createFolder p with
  | .ok d => .ok d
  | .error e =>
    match d.enter p with
    | .ok _ => .ok d
    | .error _ => .error e

/-- Makes a folder and those above it, as far as they are missing. What was made before a failure
remains. -/
def createFolders (d : Disk) (p : Path) : Option IoCause × Disk :=
  match d.ensureFolder p with
  | .ok d => (none, d)
  | .error e =>
    if e = IoCause.noEntry then
      match h : p.parent? with
      | none => (some e, d)
      | some above =>
        have := Path.length_lt_of_parent? h
        match d.createFolders above with
        | (some e, d) => (some e, d)
        | (none, d) =>
          match d.ensureFolder p with
          | .ok d => (none, d)
          | .error e => (some e, d)
    else (some e, d)
termination_by p.length

def entriesIn (d : Disk) (p : Place) : List (String × Entry) :=
  d.names.entries.filterMap fun (q, e) =>
    match q.getLast? with
    | some name => if q = p ++ [name] then some (name, e) else none
    | none => none

def list (d : Disk) (p : Path) : Except IoCause (List (String × Entry)) :=
  (d.enter p).map d.entriesIn

/-- The place of a folder that is named by its own name, so that the name can be taken away. -/
def folderByName (d : Disk) (p : Path) : Except IoCause Place := do
  match ← d.target p with
  | .folder _ => .error IoCause.busy
  | .name q name _ => d.into q name

def removeFolder (d : Disk) (p : Path) : Except IoCause Disk := do
  let q ← d.folderByName p
  if (d.entriesIn q).isEmpty then .ok { d with names := d.names.erase q }
  else .error IoCause.notEmpty

/-- Moves a folder and all that is in it to where nothing or an empty folder is. -/
def moveFolder (d : Disk) (old new : Path) : Except IoCause Disk := do
  let p ← d.folderByName old
  match ← d.target new with
  | .folder _ => .error IoCause.busy
  | .name q name _ =>
    let r := q ++ [name]
    if p.isPrefixOf r then .error IoCause.invalid
    else
      let d ← match ← d.lookUp q name with
        | none => pure d
        | some _ => d.removeFolder new
      .ok { d with
        names := ⟨d.names.entries.map fun (s, e) =>
          (if p.isPrefixOf s then r ++ s.drop p.length else s, e)⟩ }

end Disk

end RecordLog
