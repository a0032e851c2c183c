import Mathlib
import RecordLog.Scan
import RecordLog.Proofs.Runs

/-!
# Scans while the writer goes on

A scan makes its calls one after the other: it reads the watermark, lists the chunks, and opens the
planned segments, the live one perhaps by listing the chunks again. Here the writer may take any
steps before each of these calls. If it takes none, this is the scan as it is.
-/

namespace RecordLog

/-- The steps that the writer takes before a planned segment is opened, before the chunks are
listed again because the file of the live segment is gone, and before its chunk is opened then. -/
structure Waits where
  opening : List Step := []
  listing : List Step := []
  reopening : List Step := []

def Writing.goOn (steps : List Step) : Writing Unit := modify fun s => (run steps s).2

namespace Reader

open Writing

def planAmid (r : Reader) (start : Nat) (steps : List Step) : Writing Plan := do
  let live ← onWorld r.watermark
  goOn steps
  return .build live (← onWorld r.chunks) start

def scanAmid (r : Reader) (start : Nat) (steps : List Step) : Writing Scan :=
  return { reader := r, plan := ← r.planAmid start steps }

def relistAmid (r : Reader) (stop : Nat) (waits : Waits) (m : Watermark) (e : Error) :
    Writing Cursor := do
  goOn waits.listing
  match (← onWorld r.chunks).find? (·.start = m.start) with
  | some c => do
    goOn waits.reopening
    onWorld (r.openChunk c stop)
  | none => throw (.error e)

def openAmid (r : Reader) (start stop : Nat) (waits : Waits) : Source → Writing Cursor
  | .chunk c => do
    goOn waits.opening
    onWorld (r.openChunk c stop)
  | .live m => do
    goOn waits.opening
    try
      onWorld (r.openLive m start)
    catch
      | .error e => if e.isMissing then r.relistAmid stop waits m e else throw (.error e)
      | .crash => throw .crash

/-- All records of some sources, what ended them, and what the steps in between left behind. -/
def collectAmid (r : Reader) (start stop : Nat) (waits : Nat → Waits) :
    List Source → Writer × World → List Record × Item × (Writer × World)
  | [], s => ([], .done, s)
  | source :: rest, s =>
    match r.openAmid start stop (waits rest.length) source s with
    | .error (.error e) s => ([], .error e, s)
    | .error .crash s => ([], .crash, s)
    | .ok cursor s =>
      match cursor.drain start with
      | (records, some e) => (records, .error e, s)
      | (records, none) =>
        let (more, ended) := r.collectAmid start stop waits rest s
        (records ++ more, ended)

/-- What a scan shows: its records, what ended them, the position where it says the log ended, and
the state that the steps in between left behind. -/
structure Shown where
  records : List Record := []
  last : Item
  stop : Option Nat := none
  after : Writer × World

def readAmid (r : Reader) (start : Nat) (listing : List Step) (waits : Nat → Waits)
    (s : Writer × World) : Shown :=
  match r.scanAmid start listing s with
  | .error (.error e) s => { last := .error e, after := s }
  | .error .crash s => { last := .crash, after := s }
  | .ok scan s =>
    let (records, last, after) := r.collectAmid start scan.stop waits scan.plan.sources s
    { records, last, stop := some scan.stop, after }

end Reader

namespace Scan

variable {s : Scan} {w : World} {writer : Writer}

theorem collect_eq (s : Scan) (w : World) :
    s.collect w =
      match s.next w with
      | (.record r, s', w') => (r :: (s'.collect w').1, (s'.collect w').2)
      | other => ([], other) := by
  rw [collect]
  split
  · rename_i h
    simp only [h]
  · rename_i h
    split
    · rename_i r s' w' heq
      exact (h r s' w' heq).elim
    · rfl

theorem next_of_failed (h : s.failed = true) : s.next w = (.done, s, w) := by
  simp [next, h]

theorem advance_forget (s : Scan) (sources : List Source) (w : World) :
    s.advance sources w = { s with cursor := none }.advance sources w := by
  cases sources <;> simp [advance]

theorem collect_of_cursor {cur : Cursor} (hf : s.failed = false) (hc : s.cursor = some cur) :
    (s.collect w).1 = (cur.drain s.plan.start).1 ++
        (match (cur.drain s.plan.start).2 with
        | some _ => []
        | none => ({ s with cursor := none }.collect w).1) ∧
      (s.collect w).2.1 =
        (match (cur.drain s.plan.start).2 with
        | some e => .error e
        | none => ({ s with cursor := none }.collect w).2.1) ∧
      (s.collect w).2.2.2 =
        (match (cur.drain s.plan.start).2 with
        | some _ => w
        | none => ({ s with cursor := none }.collect w).2.2.2) := by
  induction hn : cur.rest.length using Nat.strong_induction_on generalizing s cur with
  | _ n ih =>
    subst hn
    rw [Cursor.drain_eq]
    cases hx : cur.nextFrom s.plan.start with
    | mk found cur' =>
      cases found with
      | none =>
        have hnext : s.next w = { s with cursor := none }.next w := by
          simp [next, hf, hc, hx, advance_forget s]
        have hsame : s.collect w = { s with cursor := none }.collect w := by
          rw [collect_eq, collect_eq, hnext]
        simp [hsame]
      | some found =>
        cases found with
        | error e =>
          have : s.next w = (.error e, { s with cursor := some cur', failed := true }, w) := by
            simp [next, hf, hc, hx]
          rw [collect_eq, this]
          simp
        | ok r =>
          have : s.next w = (.record r, { s with cursor := some cur' }, w) := by
            simp [next, hf, hc, hx]
          rw [collect_eq, this]
          have hlt := Cursor.nextFrom_lt hx
          obtain ⟨h₁, h₂, h₃⟩ := ih _ hlt (s := { s with cursor := some cur' }) hf rfl rfl
          dsimp only at h₁ h₂ h₃ ⊢
          rw [h₁, h₂, h₃]
          exact ⟨rfl, rfl, rfl⟩

end Scan

namespace Reader

variable {r : Reader} {start stop : Nat} {writer : Writer} {w : World}

theorem openAmid_idle (source : Source) :
    r.openAmid start stop {} source (writer, w) =
      Writing.onWorld (r.openSource start stop source) (writer, w) := by
  cases source with
  | chunk c => rfl
  | live m =>
    have hgo (s : Writer × World) : Writing.goOn [] s = .ok () s := rfl
    simp only [openAmid, openSource, bind, EStateM.bind, hgo, tryCatch, tryCatchThe,
      MonadExceptOf.tryCatch, EStateM.tryCatch, Writing.onWorld]
    cases r.openLive m start w with
    | ok cur w' => rfl
    | error e w' =>
      cases e with
      | crash => rfl
      | error e =>
        dsimp only [EStateM.Backtrackable.restore, EStateM.dummyRestore]
        cases e.isMissing with
        | false => rfl
        | true =>
          simp only [if_true, relistAmid, bind]
          cases hc : r.chunks w' with
          | error e' w'' => simp only [EStateM.bind, hgo, Writing.onWorld, hc]
          | ok cs w'' =>
            simp only [EStateM.bind, hgo, Writing.onWorld, hc]
            cases cs.find? (·.start = m.start) with
            | none => rfl
            | some c => rfl

/-- A scan is what it is if the writer takes no steps. -/
theorem collectAmid_idle (sources : List Source) :
    let scan : Scan := { reader := r, plan := ⟨start, stop, sources⟩ }
    r.collectAmid start stop (fun _ => {}) sources (writer, w) =
      ((scan.collect w).1, (scan.collect w).2.1, (writer, (scan.collect w).2.2.2)) := by
  induction sources generalizing w with
  | nil =>
    intro scan
    rw [Scan.collect_eq]
    rfl
  | cons source rest ih =>
    intro scan
    have hnext : scan.next w = scan.advance (source :: rest) w := rfl
    rw [collectAmid, openAmid_idle, Writing.onWorld]
    cases hx : r.openSource start stop source w with
    | error stop' w' =>
      rw [Scan.collect_eq, hnext]
      cases stop' with
      | error e =>
        have hadv : scan.advance (source :: rest) w =
            (.error e, { scan with plan := ⟨start, stop, rest⟩, failed := true }, w') := by
          simp [Scan.advance, scan, hx]
        rw [hadv]
      | crash =>
        have hadv : scan.advance (source :: rest) w =
            (.crash, { scan with plan := ⟨start, stop, rest⟩ }, w') := by
          simp [Scan.advance, scan, hx]
        rw [hadv]
    | ok cur w' =>
      have hsame : scan.collect w =
          ({ scan with plan := ⟨start, stop, rest⟩, cursor := some cur } : Scan).collect w' := by
        have hadv : scan.next w =
            ({ scan with plan := ⟨start, stop, rest⟩, cursor := some cur } : Scan).next w' := by
          rw [hnext]
          cases hc : cur.nextFrom start with
          | mk found cur' =>
            rcases found with _ | _ | _
            · simp only [Scan.advance, Scan.next, scan, hx, hc]
              exact (Scan.advance_forget
                { scan with plan := ⟨start, stop, rest⟩, cursor := some cur } _ _).symm
            · simp only [Scan.advance, Scan.next, scan, hx, hc]
              rfl
            · simp only [Scan.advance, Scan.next, scan, hx, hc]
              rfl
        rw [Scan.collect_eq, Scan.collect_eq, hadv]
      obtain ⟨h₁, h₂, h₃⟩ := Scan.collect_of_cursor (w := w')
        (s := { scan with plan := ⟨start, stop, rest⟩, cursor := some cur }) rfl rfl
      rw [hsame, h₁, h₂, h₃]
      have := ih (w := w')
      dsimp only at this ⊢
      rcases cur.drain start with ⟨records, _ | e⟩
      · simp only [this]
        rfl
      · simp only [List.append_nil]

theorem scanAmid_idle :
    r.scanAmid start [] (writer, w) = Writing.onWorld (r.scan start) (writer, w) := by
  have hgo (s : Writer × World) : Writing.goOn [] s = .ok () s := rfl
  simp only [scanAmid, planAmid, scan, plan, bind, EStateM.bind, hgo, Writing.onWorld, watermark]
  cases r.chunks w <;> rfl

end Reader

end RecordLog
