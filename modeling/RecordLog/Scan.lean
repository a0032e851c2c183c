import RecordLog.Reader

/-!
# Scans

A scan goes through a plan and yields the records from the start position on. It opens each
segment when it comes to it, and after an error it yields nothing more.
-/

namespace RecordLog

structure Scan where
  reader : Reader
  plan : Plan
  cursor : Option Cursor := none
  failed : Bool := false

inductive Item where
  | record (r : Record)
  | error (e : Error)
  | done
  /-- Something the scan called never came back. -/
  | crash
  deriving Repr, DecidableEq

def Reader.scan (r : Reader) (start : Nat) : Op Scan :=
  return { reader := r, plan := ← r.plan start }

namespace Scan

def stop (s : Scan) : Nat := s.plan.stop

/-- Opens one segment after the other until one of them yields something. -/
def advance (s : Scan) : List Source → World → Item × Scan × World
  | [], w => (.done, { s with plan := { s.plan with sources := [] }, cursor := none }, w)
  | source :: rest, w =>
    let s := { s with plan := { s.plan with sources := rest }, cursor := none }
    match s.reader.openSource s.plan.start s.plan.stop source w with
    | .error (.error e) w => (.error e, { s with failed := true }, w)
    | .error .crash w => (.crash, s, w)
    | .ok cursor w =>
      match cursor.nextFrom s.plan.start with
      | (some (.ok r), cursor) => (.record r, { s with cursor := some cursor }, w)
      | (some (.error e), cursor) =>
        (.error e, { s with cursor := some cursor, failed := true }, w)
      | (none, _) => s.advance rest w

def next (s : Scan) (w : World) : Item × Scan × World :=
  if s.failed then (.done, s, w)
  else
    match s.cursor with
    | none => s.advance s.plan.sources w
    | some cursor =>
      match cursor.nextFrom s.plan.start with
      | (some (.ok r), cursor) => (.record r, { s with cursor := some cursor }, w)
      | (some (.error e), cursor) =>
        (.error e, { s with cursor := some cursor, failed := true }, w)
      | (none, _) => s.advance s.plan.sources w

end Scan

theorem Cursor.nextFrom_lt {c c' : Cursor} {start : Nat} {r : Record}
    (h : c.nextFrom start = (some (.ok r), c')) : c'.rest.length < c.rest.length := by
  fun_induction Cursor.nextFrom c start with
  | case1 c r' c1 hn _ hlt ih => exact Nat.lt_trans (ih h) hlt
  | case2 c r' c1 hn _ =>
    simp only [Prod.mk.injEq, Option.some.injEq, Except.ok.injEq] at h
    rw [← h.2]
    exact Cursor.rest_lt_of_next hn
  | case3 c hn => exact (hn r c' h).elim

namespace Scan

/-- The segments still to be opened and how much is left of the open one. -/
def left (s : Scan) : Nat × Nat :=
  (s.plan.sources.length, match s.cursor with | none => 0 | some c => c.rest.length + 1)

abbrev Less : Nat × Nat → Nat × Nat → Prop := Prod.Lex (· < ·) (· < ·)

theorem advance_sources {s s' : Scan} {sources : List Source} {w w' : World} {r : Record}
    (h : s.advance sources w = (.record r, s', w')) :
    s'.plan.sources.length < sources.length := by
  induction sources generalizing s w with
  | nil => simp [advance] at h
  | cons source rest ih =>
    simp only [advance] at h
    split at h
    · simp at h
    · simp at h
    split at h
    · simp only [Prod.mk.injEq] at h
      simp [← h.2.1]
    · simp at h
    · exact Nat.lt_succ_of_lt (ih h)

theorem next_left {s s' : Scan} {w w' : World} {r : Record}
    (h : s.next w = (.record r, s', w')) : Less s'.left s.left := by
  unfold next at h
  split at h
  · simp at h
  split at h
  · exact .left _ _ (advance_sources h)
  split at h
  · rename_i hc _ _ _ hn
    have := Cursor.nextFrom_lt hn
    simp only [Prod.mk.injEq] at h
    simp only [left, ← h.2.1, hc]
    exact .right _ (by omega)
  · simp at h
  · exact .left _ _ (advance_sources h)

def collect (s : Scan) (w : World) : List Record × Item × Scan × World :=
  match h : s.next w with
  | (.record r, s', w') =>
    have := next_left h
    let (records, rest) := s'.collect w'
    (r :: records, rest)
  | other => ([], other)
termination_by s.left
decreasing_by exact this

/-- Goes on for a number of records, or until something else comes; `none` if nothing else did. -/
def collectUpTo (s : Scan) (w : World) : (count : Nat) → List Record × Option Item × Scan × World
  | 0 => ([], none, s, w)
  | count + 1 =>
    match s.next w with
    | (.record r, s, w) =>
      let (records, rest) := s.collectUpTo w count
      (r :: records, rest)
    | (item, s, w) => ([], some item, s, w)

end Scan

end RecordLog
