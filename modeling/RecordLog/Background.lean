import RecordLog.AsyncScan

/-!
# Scans side by side

Producers of background scans go on only while someone waits for one of them. Waiting goes by
rounds: in a round every producer gets a turn, in the order in which the scans were started. So a
scan that nobody receives from any more stays, with all it refers to, until enough rounds were
waited for another one. Each round leaves the awaited producer with less to do.
-/

namespace RecordLog

abbrev TokenId := Nat

/-- For each token whether it was called off. -/
abbrev Tokens := List Bool

structure ScanTask where
  scan : AsyncScan
  token : TokenId
  /-- What the receiver is known as, while there is one. -/
  name : Option String

/-- Tasks in the order of their start, one of which is waited for. -/
structure Awaited where
  before : List ScanTask
  task : ScanTask
  after : List ScanTask

namespace ScanTask

def cancelled (tokens : Tokens) (t : ScanTask) : Bool :=
  t.scan.cancelled || tokens.getD t.token false

def idle (tokens : Tokens) (t : ScanTask) : Bool := t.scan.idle (t.cancelled tokens)

def turn (tokens : Tokens) (t : ScanTask) (w : World) : ScanTask × World :=
  let next := t.scan.turn (t.cancelled tokens) w
  ({ t with scan := next.1 }, next.2)

def turns (tokens : Tokens) : List ScanTask → World → List ScanTask × World
  | [], w => ([], w)
  | t :: rest, w =>
    let (t, w) := t.turn tokens w
    let (rest, w) := turns tokens rest w
    (t :: rest, w)

def drop (t : ScanTask) : ScanTask := { t with scan := t.scan.cancel.close, name := none }

def dropNamed (name : String) (tasks : List ScanTask) : List ScanTask :=
  tasks.map fun t => if t.name = some name then t.drop else t

def awaited? (name : String) : List ScanTask → Option Awaited
  | [] => none
  | t :: rest =>
    if t.name = some name then some ⟨[], t, rest⟩
    else (awaited? name rest).map fun a => { a with before := t :: a.before }

end ScanTask

namespace Awaited

def others (a : Awaited) : List ScanTask := a.before ++ a.after

def tasks (a : Awaited) : List ScanTask := a.before ++ a.task :: a.after

def setScan (a : Awaited) (scan : AsyncScan) : Awaited := { a with task := { a.task with scan } }

def left (a : Awaited) : Nat × Nat × Nat := a.task.scan.producer.left

def round (tokens : Tokens) (a : Awaited) (w : World) : Awaited × World :=
  let before := ScanTask.turns tokens a.before w
  let task := a.task.turn tokens before.2
  let after := ScanTask.turns tokens a.after task.2
  (⟨before.1, task.1, after.1⟩, after.2)

theorem round_left {tokens : Tokens} {a : Awaited} {w : World} (h : a.task.idle tokens = false) :
    Producer.Less (a.round tokens w).1.left a.left :=
  AsyncScan.turn_left h

theorem recv_left {tokens : Tokens} {a : Awaited} {w : World} {scan : AsyncScan}
    (h : a.task.scan.receive (a.task.cancelled tokens) = (.pending, scan)) :
    Producer.Less ((a.setScan scan).round tokens w).1.left a.left := by
  obtain ⟨hproducer, hidle⟩ := AsyncScan.receive_pending h
  have hcancelled : scan.cancelled = a.task.scan.cancelled := by
    simpa only [h] using AsyncScan.cancelled_receive (a.task.cancelled tokens) a.task.scan
  have hleft : (a.setScan scan).left = a.left := congrArg Producer.left hproducer
  rw [← hleft]
  refine round_left ?_
  simp only [ScanTask.idle, ScanTask.cancelled, setScan, hcancelled]
  exact hidle

def recv (tokens : Tokens) (a : Awaited) (w : World) : Received × Awaited × World :=
  match h : a.task.scan.receive (a.task.cancelled tokens) with
  | (.pending, scan) =>
    have := recv_left (w := w) h
    let next := (a.setScan scan).round tokens w
    recv tokens next.1 next.2
  | (received, scan) => (received, a.setScan scan, w)
termination_by a.left
decreasing_by exact this

theorem recv_record {tokens : Tokens} {a a' : Awaited} {w w' : World} {r : Record}
    (h : a.recv tokens w = (.record r, a', w')) :
    Prod.Lex Producer.Less (· < ·) (a'.left, a'.task.scan.queue.length)
      (a.left, a.task.scan.queue.length) := by
  fun_induction recv tokens a w with
  | case1 a w scan hr hl next ih =>
    rcases Prod.lex_def.1 (ih h) with hlt | ⟨heq, _⟩
    · exact .left _ _ (Producer.less_trans hlt hl)
    · have heq : a'.left = next.1.left := heq
      exact .left _ _ (heq ▸ hl)
  | case2 a w received scan hp hr =>
    simp only [Prod.mk.injEq] at h
    obtain ⟨rfl, rfl, rfl⟩ := h
    obtain ⟨hproducer, hqueue⟩ := AsyncScan.receive_record hr
    simp only [left, setScan, hproducer]
    exact .right _ hqueue

def recvAll (tokens : Tokens) (a : Awaited) (w : World) :
    List Record × Received × Awaited × World :=
  match h : a.recv tokens w with
  | (.record r, a', w') =>
    have := recv_record h
    let (records, rest) := recvAll tokens a' w'
    (r :: records, rest)
  | other => ([], other)
termination_by (a.left, a.task.scan.queue.length)
decreasing_by exact this

def recvUpTo (tokens : Tokens) (a : Awaited) (w : World) :
    (count : Nat) → List Record × Received × Awaited × World
  | 0 => ([], .pending, a, w)
  | count + 1 =>
    match a.recv tokens w with
    | (.record r, a, w) =>
      let (records, rest) := recvUpTo tokens a w count
      (r :: records, rest)
    | other => ([], other)

def settle (tokens : Tokens) (a : Awaited) (w : World) : Awaited × World :=
  if h : a.task.idle tokens then (a, w)
  else
    have := round_left (w := w) (Bool.eq_false_iff.2 h)
    let next := a.round tokens w
    settle tokens next.1 next.2
termination_by a.left
decreasing_by exact this

/-- Stops receiving, waits for the producer to exit and tells what it ended with. -/
def finish (tokens : Tokens) (a : Awaited) (w : World) : Option Error × List ScanTask × World :=
  let (a, w) := (a.setScan a.task.scan.close).settle tokens w
  (a.task.scan.error, a.others, w)

end Awaited

end RecordLog
