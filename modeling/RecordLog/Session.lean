import RecordLog.Session.Command

/-!
# Sessions

A session is a log folder on a disk of its own, with at most one writer, kept readers and scans,
and a current index. It carries out commands one after the other. An index that lives in a file
holds it as long as anything in the session still refers to the index.
-/

namespace RecordLog

structure Session where
  world : World
  folder : Path
  /-- Whether indexes live in files. -/
  inFile : Bool
  current : Option StoreId := none
  writer : Option Writer := none
  readers : Table String Reader := {}
  scans : Table String Scan := {}
  tasks : List ScanTask := []
  tokens : Tokens := []
  tokenNames : Table String TokenId := {}
  buffer : Option (Config × Buffer) := none

namespace Session

/-- The folder around the log folder. -/
def home : String := "session folder"

def homePath : Path := Path.ofString home

def folderAt (name : String) : String := s!"{home}/{name}"

def awayPath : Path := homePath ++ ["folder away"]

def start (folder : String) (makeFolder inFile : Bool) (salts : Nat → UInt64)
    (nonces : Nat → Nonce) : Session :=
  let path := Path.ofString (folderAt folder)
  let disk := (({} : Disk).createFolders (if makeFolder then path else homePath)).2
  let world : World := { disk, salts, nonces }
  if inFile then { world, folder := path, inFile }
  else
    { world := { world with stores := [{ medium := .memory {} }] }
      folder := path, inFile, current := some 0 }

def disk (s : Session) : Disk := s.world.disk

def setDisk (s : Session) (d : Disk) : Session := { s with world := { s.world with disk := d } }

def locate (s : Session) (f : FileName) : Path :=
  Path.join (if f.outside then homePath else s.folder) f.name

def writerState (s : Session) : Option WriterState :=
  s.writer.map fun w => (w.buffer.state, w.stats)

/-! ## The writer -/

def onWriter {α : Type} (s : Session) (w : Writer) (op : Writing α) : Session × Except Stop α :=
  match op (w, s.world) with
  | .ok a (w, world) => ({ s with writer := some w, world }, .ok a)
  | .error stop (w, world) => ({ s with writer := some w, world }, .error stop)

def onWorld {α : Type} (s : Session) (op : Op α) : Session × Except Stop α :=
  match op s.world with
  | .ok a world => ({ s with world }, .ok a)
  | .error stop world => ({ s with world }, .error stop)

def failure? {α : Type} : Except Stop α → Option Stop
  | .ok _ => none
  | .error stop => some stop

def unlessCrash (failure : Option Stop) (reply : Reply) : Reply :=
  if failure = some .crash then .stopped .crash else reply

def appendMany (s : Session) (w : Writer) : Payloads → Session × List Nat × Option Stop
  | [] => (s, [], none)
  | data :: rest =>
    match (Writer.append data) (w, s.world) with
    | .ok pos (w, world) =>
      let (s, ends, failure) := appendMany { s with writer := some w, world } w rest
      (s, pos :: ends, failure)
    | .error stop (w, world) => ({ s with writer := some w, world }, [], some stop)

def write (s : Session) (w : Writer) : WriterCommand → Session × Reply
  | .append data =>
    let (s, result) := s.onWriter w (Writer.append data)
    (s, .written result.toOption (failure? result) s.writerState)
  | .appendMany payloads =>
    let (s, ends, failure) := s.appendMany w payloads
    (s, unlessCrash failure (.appended ends failure s.writerState))
  | .seal =>
    let (s, result) := s.onWriter w Writer.sealLive
    (s, .written none (failure? result) s.writerState)
  | .checkpoint =>
    let (s, result) := s.onWriter w Writer.checkpoint
    let failure := failure? result
    (s, unlessCrash failure (.written result.toOption failure s.writerState))
  | .observeKey size =>
    let (s, result) := s.onWriter w (Writer.observeKey size)
    (s, .written none (failure? result) s.writerState)

def openWriter (s : Session) (cfg : Config) (shared : Bool) : Session × Reply :=
  let op : Option (Op Writer) :=
    if s.inFile && !shared then some (Writer.openFolder cfg)
    else s.current.map (Writer.resume cfg)
  match op with
  | none => (s, .unknown)
  | some op =>
    match s.onWorld op with
    | (s, .ok w) =>
      let s := { s with writer := some w, current := some w.store }
      (s, .written none none s.writerState)
    | (s, .error stop) => (s, unlessCrash (some stop) (.written none (some stop) s.writerState))

def dropWriter (s : Session) : Session :=
  { s with writer := none, current := if s.inFile then none else s.current }

/-! ## Readers and scans -/

def fileSize? (d : Disk) (p : Path) : Option Nat :=
  match d.find p with
  | .ok (.file id) => some (d.content id).size
  | _ => none

def chunkReport (s : Session) (c : Chunk) : Chunk × Bool :=
  (c, fileSize? s.disk (Path.join s.folder c.file) == some c.diskSize)

/-- The reply to a scan that came to rest, after asking it again if it failed. -/
def scanReply (records : List Record) (item : Option Item) (scan : Scan) (w : World) :
    Reply × Scan × World :=
  match item with
  | none | some (.record _) => (.scanned scan.stop records .more, scan, w)
  | some .done => (.scanned scan.stop records .done, scan, w)
  | some .crash => (.stopped .crash, scan, w)
  | some (.error e) =>
    let (item, scan, w) := scan.next w
    (.scanned scan.stop records (.failed e (item == .done)), scan, w)

def drain (scan : Scan) (limit : Option Nat) (w : World) : Reply × Scan × World :=
  match limit with
  | none =>
    let (records, item, scan, w) := scan.collect w
    scanReply records (some item) scan w
  | some count =>
    let (records, item, scan, w) := scan.collectUpTo w count
    scanReply records item scan w

def useToken (s : Session) (name : Option String) : Session × TokenId :=
  match name.bind s.tokenNames.get? with
  | some id => (s, id)
  | none =>
    let id := s.tokens.length
    let tokenNames := match name with
      | some name => s.tokenNames.insert name id
      | none => s.tokenNames
    ({ s with tokens := s.tokens ++ [false], tokenNames }, id)

def read (s : Session) (r : Reader) : ReaderCommand → Session × Reply
  | .stop =>
    match s.onWorld r.stop with
    | (s, .ok pos) => (s, .logEnd pos)
    | (s, .error stop) => (s, .stopped stop)
  | .chunks =>
    match s.onWorld r.chunks with
    | (s, .ok chunks) => (s, .chunks (chunks.map s.chunkReport))
    | (s, .error stop) => (s, .stopped stop)
  | .scan start =>
    match s.onWorld (r.scan start) with
    | (s, .ok scan) =>
      let (reply, _, world) := drain scan none s.world
      ({ s with world }, reply)
    | (s, .error stop) => (s, .stopped stop)
  | .startScan id start =>
    match s.onWorld (r.scan start) with
    | (s, .ok scan) => ({ s with scans := s.scans.insert id scan }, .logEnd scan.stop)
    | (s, .error stop) => (s, .stopped stop)
  | .startAsync id start depth token =>
    let (s, token) := s.useToken token
    let task : ScanTask := ⟨r.scanAsync start depth, token, some id⟩
    ({ s with tasks := ScanTask.dropNamed id s.tasks ++ [task] }, .nothing)
  | .keep id => ({ s with readers := s.readers.insert id r }, .nothing)

def nextOfScan (s : Session) (id : String) (limit : Option Nat) : Session × Reply :=
  match s.scans.get? id with
  | none => (s, .unknown)
  | some scan =>
    let (reply, scan, world) := drain scan limit s.world
    ({ s with world, scans := s.scans.insert id scan }, reply)

def receivedRest : Received → Rest
  | .record _ | .pending => .more
  | .ended => .done
  | .error e => .failed e true

def async (s : Session) (a : Awaited) (c : AsyncCommand) : Session × Reply :=
  let parent := s.tokens.getD a.task.token false
  match c with
  | .recv limit =>
    let (records, received, a, world) := match limit with
      | none => a.recvAll s.tokens s.world
      | some count => a.recvUpTo s.tokens s.world count
    ({ s with world, tasks := a.tasks }, .received records (receivedRest received))
  | .cancel =>
    ({ s with tasks := (a.setScan a.task.scan.cancel).tasks }, .token parent none)
  | .isFinished => (s, .flag a.task.scan.isFinished)
  | .finish =>
    let (e, tasks, world) := a.finish s.tokens s.world
    ({ s with world, tasks }, .token parent e)
  | .drop =>
    ({ s with tasks := { a with task := a.task.drop }.tasks }, .token parent none)

/-! ## The current index -/

def rawTables (s : Session) : Option StoredTables :=
  match s.disk.find (Path.join s.folder indexFileName) with
  | .ok (.file id) =>
    match s.disk.content id with
    | .tables t _ => some t
    | _ => none
  | _ => none

def changeRaw (s : Session) (f : StoredTables → StoredTables) : Session × Reply :=
  match s.disk.openOrCreate (Path.join s.folder indexFileName) with
  | .ok (id, d) =>
    (s.setDisk (d.setContent id (.tables (f (s.rawTables.getD {})) [])), .nothing)
  | .error _ => (s, .unknown)

def store (s : Session) : StoreCommand → Session × Reply
  | .open =>
    match s.onWorld (if s.inFile then Store.openFile s.folder else Store.openMemory) with
    | (s, .ok id) => ({ s with current := some id }, .nothing)
    | (s, .error stop) => (s, .stopped stop)
  | .close =>
    match s.current with
    | some id => ((s.onWorld (Store.close id)).1, .nothing)
    | none => (s, .unknown)
  | .drop => ({ s with current := none }, .nothing)
  | .info =>
    match s.current.bind (s.world.stores[·]?) with
    | none => (s, .unknown)
    | some store =>
      match store.medium with
      | .memory catalog =>
        (s, .memoryInfo (if store.poisoned then 0 else catalog.chunks.entries.length))
      | .file _ => (s, .fileInfo !store.closed)
  | .failCommits on =>
    match s.current with
    | none => (s, .unknown)
    | some id =>
      let change (w : World) : World :=
        match w.stores[id]? with
        | some store => { w with stores := w.stores.set id { store with failCommits := on } }
        | none => w
      ({ s with world := change s.world }, .nothing)
  | .transact h p =>
    match s.current with
    | none => (s, .unknown)
    | some id =>
      match Store.transact id h p s.world with
      | (answers, .ok _ world) => ({ s with world }, .answers answers none)
      | (answers, .error stop world) => ({ s with world }, .answers answers (some stop))
  | .putRaw key value => s.changeRaw fun t => { t with singles := t.singles.insert key value }
  | .putRawChunk key value => s.changeRaw fun t => { t with chunks := t.chunks.insert key value }
  | .getRaw key => (s, .rawValue (s.rawTables.bind (·.singles.get? key)))
  | .getRawChunk key => (s, .rawValue (s.rawTables.bind (·.chunks.get? key)))
  | .getRawCheckpoint key => (s, .position (s.rawTables.bind (·.checkpoints.get? key)))

/-! ## A buffer of its own -/

def bufferReport (s : Session) (cfg : Config) (b : Buffer) : BufferReport :=
  ⟨b.state, (cfg.locate b.file).fileName?, fileSize? s.disk (cfg.locate b.file)⟩

def keepBuffer (s : Session) (cfg : Config) (b : Buffer) (chunk : Option Chunk)
    (failure : Option Stop) : Session × Reply :=
  ({ s with buffer := some (cfg, b) },
    unlessCrash failure (.buffer chunk failure (s.bufferReport cfg b)))

def newBuffer (s : Session) (cfg : Config) (op : Op Buffer) : Session × Reply :=
  match s.onWorld op with
  | (s, .ok b) => s.keepBuffer cfg b none none
  | (s, .error stop) => (s, .stopped stop)

def useBuffer (s : Session) (cfg : Config) (b : Buffer) : BufferCommand → Session × Reply
  | .create cfg start => s.newBuffer cfg (Buffer.create cfg start)
  | .resume cfg state => s.newBuffer cfg (Buffer.resume cfg state)
  | .fits size => (s, .flag (b.fits size))
  | .append operation data =>
    match s.onWorld (b.append cfg operation data) with
    | (s, .ok b) => s.keepBuffer cfg b none none
    | (s, .error stop) => s.keepBuffer cfg b none (some stop)
  | .endRecord => s.keepBuffer cfg b.endRecord none none
  | .flush =>
    let (s, result) := s.onWorld (b.flush cfg)
    s.keepBuffer cfg b none (failure? result)
  | .state => s.keepBuffer cfg b none none
  | .seal =>
    match s.onWorld (b.sealed cfg) with
    | (s, .ok chunk) => s.keepBuffer cfg b (some chunk) none
    | (s, .error stop) => s.keepBuffer cfg b none (some stop)
  | .drop => ({ s with buffer := none }, .nothing)

def onBuffer (s : Session) (c : BufferCommand) : Session × Reply :=
  match s.buffer, c with
  | some (cfg, b), c => s.useBuffer cfg b c
  | none, .create cfg start => s.newBuffer cfg (Buffer.create cfg start)
  | none, .resume cfg state => s.newBuffer cfg (Buffer.resume cfg state)
  | none, .drop => (s, .nothing)
  | none, _ => (s, .unknown)

/-! ## Files -/

def changeDisk (s : Session) (r : Except IoCause Disk) : Session × Reply :=
  match r with
  | .ok d => (s.setDisk d, .nothing)
  | .error _ => (s, .unknown)

/-- Whether an open index holds a file. It goes by its own tables then, and puts back what others
do to the file. -/
def held (s : Session) (id : FileId) : Bool := s.world.stores.any (Store.holds id)

def changeContent (s : Session) (f : FileName) (g : Content → Content) : Session × Reply :=
  s.changeDisk do
    match ← s.disk.find (s.locate f) with
    | .folder => .error IoCause.isDirectory
    | .file id =>
      .ok (if s.held id then s.disk else s.disk.setContent id (g (s.disk.content id)))

def overwrite (s : Session) (f : FileName) (data : Bytes) : Session × Reply :=
  s.changeDisk do
    let (id, d) ← s.disk.openOrCreate (s.locate f)
    if s.held id then .ok d else (d.empty id).write id 0 data

/-- Lets a file have the content of another. It is emptied first, so a file copied onto itself is
empty afterwards. -/
def copy (s : Session) (f g : FileName) : Session × Reply :=
  s.changeDisk do
    match ← s.disk.find (s.locate f) with
    | .folder => .error IoCause.isDirectory
    | .file id =>
      if s.disk.content id = .full then .error IoCause.invalid
      else
        let (new, d) ← s.disk.openOrCreate (s.locate g)
        let emptied := d.empty new
        match emptied.content new, emptied.content id with
        | .full, c => if c.size = 0 then .ok emptied else .error IoCause.noSpace
        | _, c => .ok (if s.held new then d else emptied.setContent new c)

def removed (s : Session) : Except IoCause Disk → Session × Reply
  | .ok d => (s.setDisk d, .removed true)
  | .error _ => (s, .removed false)

def onDisk (s : Session) : DiskCommand → Session × Reply
  | .list =>
    match s.disk.list s.folder with
    | .error _ => (s, .missing)
    | .ok names =>
      let names := (names.filter (·.1 ≠ indexFileName)).mergeSort (fun a b => decide (a.1 ≤ b.1))
      (s, .files (names.map fun (name, e) =>
        match e with
        | .file id => (name, some (s.disk.content id).size)
        | .folder => (name, none)))
  | .read f =>
    match s.disk.readAll (s.locate f) with
    | .ok data => (s, .content data)
    | .error _ => (s, .missing)
  | .replace f data => s.overwrite f data
  | .patch f offset mask => s.changeContent f (·.combine offset mask)
  | .truncate f size => s.changeContent f fun c => (c.setSize size).toOption.getD c
  | .remove f => s.removed (s.disk.remove (s.locate f))
  | .removeFolder f => s.removed (s.disk.removeFolder (s.locate f))
  | .createFolder f =>
    match s.disk.createFolders (s.locate f) with
    | (none, d) => (s.setDisk d, .nothing)
    | (some _, d) => (s.setDisk d, .unknown)
  | .copy f g => s.copy f g
  | .makeFull f => s.changeDisk (s.disk.replace (s.locate f) .full)
  | .folderAway => s.changeDisk (s.disk.moveFolder s.folder awayPath)
  | .folderBack => s.changeDisk (s.disk.moveFolder awayPath s.folder)

/-! ## Commands -/

def referenced (s : Session) : List StoreId :=
  s.current.toList ++ s.writer.toList.map (·.store) ++
    s.readers.entries.map (·.2.store) ++ s.scans.entries.map (·.2.reader.store) ++
    (s.tasks.filter (!·.scan.isFinished)).map (·.scan.reader.store)

def release (s : Session) : Session :=
  let referenced := s.referenced
  let stores := s.world.stores.mapIdx fun id store =>
    match store.medium with
    | .memory _ => store
    | .file _ => if referenced.contains id then store else { store with closed := true }
  let tasks := s.tasks.filter fun t => t.name.isSome || !t.scan.isFinished
  { s with tasks, world := { s.world with stores } }

def carryOut (s : Session) : Command → Session × Reply
  | .open cfg shared => s.openWriter cfg shared
  | .close =>
    match s.writer with
    | some w => ((s.onWorld w.close).1.dropWriter, .nothing)
    | none => (s, .unknown)
  | .drop => (s.dropWriter, .nothing)
  | .state => (s, .state s.writerState)
  | .salt =>
    match s.writer with
    | some w => (s, .salt w.buffer.salt)
    | none => (s, .unknown)
  | .write c =>
    match s.writer with
    | some w => s.write w c
    | none => (s, .unknown)
  | .putCheckpoint name pos =>
    match s.writer with
    | none => (s, .unknown)
    | some w =>
      match s.onWorld (w.putCheckpoint name pos) with
      | (s, .ok ()) => (s, .nothing)
      | (s, .error stop) => (s, .stopped stop)
  | .getCheckpoint name =>
    match s.writer with
    | none => (s, .unknown)
    | some w =>
      match s.onWorld (w.getCheckpoint name) with
      | (s, .ok pos) => (s, .position pos)
      | (s, .error stop) => (s, .stopped stop)
  | .read reader c =>
    let reader := match reader with
      | some id => s.readers.get? id
      | none => s.writer.map (·.reader)
    match reader with
    | some r => s.read r c
    | none => (s, .unknown)
  | .dropReader id => ({ s with readers := s.readers.erase id }, .nothing)
  | .nextOfScan id limit => s.nextOfScan id limit
  | .dropScan id => ({ s with scans := s.scans.erase id }, .nothing)
  | .async id c =>
    match ScanTask.awaited? id s.tasks with
    | some a => s.async a c
    | none => (s, .unknown)
  | .cancelToken token =>
    let (s, id) := s.useToken (some token)
    ({ s with tokens := s.tokens.set id true }, .nothing)
  | .store c => s.store c
  | .fault h f =>
    let faults := match f with
      | some f => s.world.faults.insert h f
      | none => s.world.faults.erase h
    ({ s with world := { s.world with faults } }, .nothing)
  | .calls =>
    ({ s with world := { s.world with events := #[] } },
      .calls (s.world.events.toList.filterMap Event.text?))
  | .buffer c => s.onBuffer c
  | .disk c => s.onDisk c

def perform (s : Session) (c : Command) : Session × Reply :=
  let (s, reply) := s.carryOut c
  (s.release, reply)

end Session

end RecordLog
