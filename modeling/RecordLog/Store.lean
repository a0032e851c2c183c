import RecordLog.World

/-!
# Units of work on an index

An index is used in units of work. `Store.read` lets a program look at the tables; `Store.update`
also replaces them, all at once, if the program ends well. A closed index refuses both before they
start. An index in memory that a program crashed on refuses them from then on.

An index can also live in a file, which one opened index at a time may hold.
-/

namespace RecordLog.Store

variable {α : Type}

/-- What an index refuses to start with. -/
def check (s : Store) : Except Error Unit :=
  if s.closed then .error .closed
  else if s.poisoned then .error (.poisoned "metadata state")
  else .ok ()

def lookup (id : StoreId) : Op Store := fun w =>
  match w.stores[id]? with
  | some s => .ok s w
  | none => .error (.error .closed) w

def replace (id : StoreId) (s : Store) : Op Unit := modify fun w =>
  { w with stores := w.stores.set id s }

def tables (s : Store) (d : Disk) : Tables :=
  match s.medium with
  | .memory catalog => .plain catalog
  | .file id =>
    match d.content id with
    | .tables t _ => .stored t
    | _ => .stored {}

/-- Starts a unit of work, which has the tables to itself until it ends. -/
def begin (id : StoreId) (h : Hook) : Op Tables := do
  let s ← lookup id
  if s.watched then
    if h = .update then Op.trace .update
    Op.pass h
  let s ← lookup id
  Op.ofExcept s.check
  pure (s.tables (← get).disk)

def commit (id : StoreId) (t : Tables) : Op Unit := do
  let s ← lookup id
  if s.failCommits then Op.fail (.database "injected commit failure")
  match s.medium, t with
  | .memory _, .plain catalog => replace id { s with medium := .memory catalog }
  | .file file, .stored t =>
    modify fun w => { w with disk := w.disk.setContent file (.tables t []) }
  | _, _ => pure ()

def abandon (id : StoreId) (stop : Stop) : Op α := do
  let s ← lookup id
  match stop, s.medium with
  | .crash, .memory _ => replace id { s with poisoned := true }
  | _, _ => pure ()
  throw stop

/-- A unit of work that also does other things while it has the tables. -/
def within (id : StoreId) (work : Tables → Op (α × Tables)) : Op α := do
  let tables ← begin id .update
  let (a, tables) ← (try work tables catch stop => abandon id stop)
  commit id tables
  pure a

/-- Runs a program in a unit of work of its own; it also tells which requests were answered. -/
def transact (id : StoreId) (h : Hook) (p : Program α) (w : World) :
    List Answered × EStateM.Result Stop World α :=
  match begin id h w with
  | .error stop w => ([], .error stop w)
  | .ok t w =>
    match t.run p with
    | (answers, .error stop) => (answers, abandon id stop w)
    | (answers, .ok (a, t)) =>
      (answers, (if h = .update then commit id t *> pure a else pure a : Op α) w)

def read (id : StoreId) (p : Program α) : Op α := fun w => (transact id .read p w).2

def update (id : StoreId) (p : Program α) : Op α := fun w => (transact id .update p w).2

def close (id : StoreId) : Op Unit := modify fun w =>
  match w.stores[id]? with
  | some s => { w with stores := w.stores.set id { s with closed := true } }
  | none => w

def add (s : Store) : Op StoreId := fun w =>
  .ok w.stores.length { w with stores := w.stores ++ [s] }

def openMemory : Op StoreId := add { medium := .memory {} }

def holds (file : FileId) (s : Store) : Bool := s.medium == .file file && !s.closed

/-- Opens the index that lives in a folder, making an empty one if there is none. -/
def openFile (folder : Path) : Op StoreId := do
  Op.makeFolders "create metadata folder" folder.moves
  let path := Path.join folder indexFileName
  let w ← get
  match w.disk.openOrCreate path with
  | .error cause => Op.fail (.database s!"I/O error: {cause.message}")
  | .ok (file, disk) =>
    if w.stores.any (holds file) then
      Op.fail (.database "Database already open. Cannot acquire lock.")
    match disk.content file with
    | .tables _ damage =>
      if damage.isZero then set { w with disk } else Op.fail (.database "Invalid data")
    | .bytes b =>
      if b.size = 0 then set { w with disk := disk.setContent file (.tables {} []) }
      else Op.fail (.database "Invalid data")
    | .full => Op.fail (.database "Invalid data")
    add { medium := .file file, watched := false }

end RecordLog.Store
