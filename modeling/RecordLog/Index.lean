import RecordLog.Stored
import RecordLog.Table

/-!
# The index

The index holds what a log must remember: the descriptor of the live segment, the sealed
chunks by position, the size statistics, and positions that consumers keep under names. A
`Program` asks for these things and replaces them, one request at a time, and can give up.

The tables of an index come in two forms. A `Catalog` holds the values themselves. `StoredTables`
hold them as byte strings, so that reading one can fail. Both answer the same requests.
-/

namespace RecordLog

/-- Why an operation stops: with an error to report, or because something it called never came
back. -/
inductive Stop where
  | error (e : Error)
  | crash
  deriving Repr, DecidableEq

inductive Request where
  | buffer
  | chunks
  | stats
  | checkpoint (name : String)
  | putBuffer (b : BufferState)
  | addChunk (key : Nat) (c : Chunk)
  | putStats (s : Stats)
  | putCheckpoint (name : String) (pos : Nat)
  deriving Repr, DecidableEq

namespace Request

abbrev Answer : Request → Type
  | .buffer => Option BufferState
  | .chunks => List Chunk
  | .stats => Option Stats
  | .checkpoint _ => Option Nat
  | .putBuffer _ | .addChunk _ _ | .putStats _ | .putCheckpoint _ _ => Unit

end Request

/-- A unit of work on an index. -/
inductive Program (α : Type) where
  | done (a : α)
  | stop (s : Stop)
  | ask (r : Request) (next : r.Answer → Program α)

namespace Program

variable {α β : Type}

def bind : Program α → (α → Program β) → Program β
  | .done a, f => f a
  | .stop s, _ => .stop s
  | .ask r next, f => .ask r fun answer => (next answer).bind f

instance : Monad Program where
  pure := .done
  bind := bind

def request (r : Request) : Program r.Answer := .ask r .done

end Program

abbrev Answered := (r : Request) × r.Answer

structure Catalog where
  buffer : Option BufferState := none
  chunks : PositionMap Chunk := {}
  stats : Option Stats := none
  checkpoints : Table String Nat := {}
  deriving Repr, DecidableEq, Inhabited

namespace Catalog

def answer (c : Catalog) : (r : Request) → Except Error (r.Answer × Catalog)
  | .buffer => .ok (c.buffer, c)
  | .chunks => .ok (c.chunks.values, c)
  | .stats => .ok (c.stats, c)
  | .checkpoint name => .ok (c.checkpoints.get? name, c)
  | .putBuffer b => .ok ((), { c with buffer := some b })
  | .addChunk key chunk => .ok ((), { c with chunks := c.chunks.insert key chunk })
  | .putStats s => .ok ((), { c with stats := some s })
  | .putCheckpoint name pos =>
    .ok ((), { c with checkpoints := c.checkpoints.insert name pos })

end Catalog

structure StoredTables where
  /-- Values there is one of, by name. -/
  singles : Table String Bytes := {}
  chunks : PositionMap Bytes := {}
  checkpoints : Table String Nat := {}
  deriving Repr, DecidableEq, Inhabited

namespace StoredTables

def bufferKey : String := "buffer"

def statsKey : String := "stats"

def single {α : Type} (t : StoredTables) (key : String) (reader : Stored.Reader α) :
    Except Error (Option α) :=
  match t.singles.get? key with
  | none => .ok none
  | some bs => (Stored.decode reader bs).map some

def answer (t : StoredTables) : (r : Request) → Except Error (r.Answer × StoredTables)
  | .buffer => (t.single bufferKey Stored.buffer).map (·, t)
  | .chunks => (t.chunks.values.mapM (Stored.decode Stored.chunk)).map (·, t)
  | .stats => (t.single statsKey Stored.stats).map (·, t)
  | .checkpoint name => .ok (t.checkpoints.get? name, t)
  | .putBuffer b => .ok ((), { t with singles := t.singles.insert bufferKey (Stored.ofBuffer b) })
  | .addChunk key c => .ok ((), { t with chunks := t.chunks.insert key (Stored.ofChunk c) })
  | .putStats s => .ok ((), { t with singles := t.singles.insert statsKey (Stored.ofStats s) })
  | .putCheckpoint name pos =>
    .ok ((), { t with checkpoints := t.checkpoints.insert name pos })

end StoredTables

inductive Tables where
  | plain (c : Catalog)
  | stored (t : StoredTables)
  deriving Repr, DecidableEq

namespace Tables

def answer (t : Tables) (r : Request) : Except Error (r.Answer × Tables) :=
  match t with
  | .plain c => (c.answer r).map fun (a, c) => (a, .plain c)
  | .stored t => (t.answer r).map fun (a, t) => (a, .stored t)

/-- Runs a program; what it leaves behind counts only if it ends well. The requests it got
answers to are listed whether it does or not. -/
def run {α : Type} (t : Tables) : Program α → List Answered × Except Stop (α × Tables)
  | .done a => ([], .ok (a, t))
  | .stop s => ([], .error s)
  | .ask r next =>
    match t.answer r with
    | .error e => ([], .error (.error e))
    | .ok (a, t) =>
      let (answers, result) := t.run (next a)
      (⟨r, a⟩ :: answers, result)

end Tables

end RecordLog
