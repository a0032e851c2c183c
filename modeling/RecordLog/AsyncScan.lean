import RecordLog.Reader

/-!
# Scans in the background

A background scan has two sides. The producer plans, opens segments and puts records into a queue
of bounded length, waiting while it is full. When it ends it gives up the queue first and tells the
error it ended with afterwards, if there was one. The receiver takes records off the queue, and when
that is empty and given up it waits for the error. Either side, or whoever holds the token the scan
was started with, can call the scan off; the producer notices between two segments or when it is
about to hand over a record.

`AsyncScan.step` is one step of the producer and `AsyncScan.receive` one attempt of the receiver,
so that any interleaving of the two can be described. `AsyncScan.turn` lets the producer go on up
to the next time it plans or opens a segment, but not for more records than its quota. A receiver
that waits has a producer that can go on.
-/

namespace RecordLog

inductive Producer where
  | planning
  | running (plan : Plan) (cursor : Option Cursor)
  /-- About to hand over a record. -/
  | holding (r : Record) (plan : Plan) (cursor : Cursor)
  /-- Hands over nothing more and has still to tell with which error it ended, if with any. -/
  | ended (e : Option Error)
  | exited
  deriving Repr, DecidableEq

namespace Producer

def isOver : Producer → Bool
  | .ended _ | .exited => true
  | _ => false

/-- Whether a plan is still to be made, the segments still to be opened, and how much is left of
the open one. -/
def left : Producer → Nat × Nat × Nat
  | .planning => (1, 0, 0)
  | .running plan none => (0, plan.sources.length, 2)
  | .running plan (some cursor) => (0, plan.sources.length, 2 * cursor.rest.length + 3)
  | .holding _ plan cursor => (0, plan.sources.length, 2 * cursor.rest.length + 4)
  | .ended _ => (0, 0, 1)
  | .exited => (0, 0, 0)

abbrev Less : Nat × Nat × Nat → Nat × Nat × Nat → Prop :=
  Prod.Lex (· < ·) (Prod.Lex (· < ·) (· < ·))

theorem less_trans {a b c : Nat × Nat × Nat} (h : Less a b)
    (h' : Less b c) : Less a c := by
  obtain ⟨a1, a2, a3⟩ := a
  obtain ⟨b1, b2, b3⟩ := b
  obtain ⟨c1, c2, c3⟩ := c
  simp only [Less, Prod.lex_def] at *
  omega

end Producer

structure AsyncScan where
  reader : Reader
  start : Nat
  /-- How many records the queue holds at most. -/
  capacity : Nat
  capacity_pos : 0 < capacity := by omega
  producer : Producer := .planning
  queue : List Record := []
  /-- Whether the receiver still takes records. -/
  receiving : Bool := true
  /-- Whether the scan itself was called off. -/
  cancelled : Bool := false
  /-- What the producer told that it ended with and nobody received yet. -/
  error : Option Error := none
  /-- Whether the receiver knows that no record comes any more. -/
  done : Bool := false
  /-- Whether the receiver waits for the error that the producer ended with. -/
  awaiting : Bool := false

/-- A scan in the background whose queue holds `depth` records, or one if that is none. -/
def Reader.scanAsync (r : Reader) (start depth : Nat) : AsyncScan :=
  { reader := r, start, capacity := max depth 1 }

inductive Received where
  | record (r : Record)
  | error (e : Error)
  | ended
  /-- Nothing is there yet. -/
  | pending
  deriving Repr, DecidableEq

namespace AsyncScan

def exit (a : AsyncScan) : AsyncScan := { a with producer := .ended none }

def reason : Stop → Error
  | .error e => e
  | .crash => .task "the scan's task panicked"

def fail (a : AsyncScan) (stop : Stop) : AsyncScan :=
  { a with producer := .ended (some (reason stop)) }

/-- One step of the producer; `cancelled` tells whether the scan or its token was called off. -/
def step (cancelled : Bool) (a : AsyncScan) (w : World) : AsyncScan × World :=
  match a.producer with
  | .exited => (a, w)
  | .ended e => ({ a with producer := .exited, error := e }, w)
  | .planning =>
    match a.reader.plan a.start w with
    | .ok plan w => ({ a with producer := .running plan none }, w)
    | .error stop w => (a.fail stop, w)
  | .running plan none =>
    match plan.sources with
    | [] => (a.exit, w)
    | source :: rest =>
      if cancelled then (a.exit, w)
      else
        match a.reader.openSource a.start plan.stop source w with
        | .ok cursor w =>
          ({ a with producer := .running { plan with sources := rest } (some cursor) }, w)
        | .error stop w => (a.fail stop, w)
  | .running plan (some cursor) =>
    match cursor.next with
    | (none, _) => ({ a with producer := .running plan none }, w)
    | (some (.error e), _) => (a.fail (.error e), w)
    | (some (.ok r), cursor) =>
      if r.start < a.start then ({ a with producer := .running plan (some cursor) }, w)
      else ({ a with producer := .holding r plan cursor }, w)
  | .holding r plan cursor =>
    if cancelled || !a.receiving then (a.exit, w)
    else if a.queue.length < a.capacity then
      ({ a with queue := a.queue ++ [r], producer := .running plan (some cursor) }, w)
    else (a, w)

def idle (cancelled : Bool) (a : AsyncScan) : Bool :=
  match a.producer with
  | .exited => true
  | .holding _ _ _ => !cancelled && a.receiving && decide (a.capacity ≤ a.queue.length)
  | _ => false

theorem step_left {cancelled : Bool} {a : AsyncScan} {w : World} (h : a.idle cancelled = false) :
    Producer.Less (step cancelled a w).1.producer.left a.producer.left := by
  obtain ⟨reader, start, capacity, hc, producer, queue, receiving, own, error, done, awaiting⟩ := a
  cases producer with
  | exited => simp [idle] at h
  | ended e => exact .right _ (.right _ Nat.zero_lt_one)
  | planning =>
    simp only [step]
    split <;> exact .left _ _ Nat.zero_lt_one
  | running plan cursor =>
    have exits : ∀ n, Producer.Less (0, 0, 1) (0, plan.sources.length, n + 2) := fun n => by
      rcases Nat.eq_zero_or_pos plan.sources.length with h | h
      · rw [h]; exact .right _ (.right _ (by omega))
      · exact .right _ (.left _ _ h)
    cases cursor with
    | none =>
      simp only [step]
      split
      · exact exits 0
      · rename_i hs
        split
        · exact exits 0
        split
        · refine .right _ (.left _ _ ?_)
          simp [hs]
        · exact exits 0
    | some cursor =>
      simp only [step]
      split
      · exact .right _ (.right _ (by omega))
      · exact exits _
      · rename_i hn
        have := Cursor.rest_lt_of_next hn
        split
        · exact .right _ (.right _ (by omega))
        · exact .right _ (.right _ (by omega))
  | holding r plan cursor =>
    simp only [step]
    split
    · rcases Nat.eq_zero_or_pos plan.sources.length with h | h
      · refine .right _ ?_
        rw [h]
        exact .right _ (by omega)
      · exact .right _ (.left _ _ h)
    split
    · exact .right _ (.right _ (by omega))
    · rename_i h1 h2
      simp only [idle] at h
      simp at h1 h h2
      have := h h1.1 h1.2
      omega

instance : WellFoundedRelation (Nat × Nat × Nat) where
  rel := Producer.Less
  wf := (Prod.lex Nat.lt_wfRel (Prod.lex Nat.lt_wfRel Nat.lt_wfRel)).wf

/-- Whether the producer's next step plans or opens a segment. -/
def waits (cancelled : Bool) (a : AsyncScan) : Bool :=
  match a.producer with
  | .planning => true
  | .running plan none => !cancelled && !plan.sources.isEmpty
  | _ => false

def delivers (cancelled : Bool) (a : AsyncScan) : Bool :=
  match a.producer with
  | .holding _ _ _ => !cancelled && a.receiving && decide (a.queue.length < a.capacity)
  | _ => false

/-- Lets the producer go on until it cannot, has planned or opened a segment with success, or would
deliver more records than it may. -/
def go (cancelled : Bool) (quota : Nat) (a : AsyncScan) (w : World) : AsyncScan × World :=
  if h : a.idle cancelled || (a.delivers cancelled && quota = 0) then (a, w)
  else
    have : Producer.Less (step cancelled a w).1.producer.left a.producer.left :=
      step_left (by simp at h; exact h.1)
    let next := step cancelled a w
    if a.waits cancelled && !next.1.producer.isOver then next
    else go cancelled (quota - (a.delivers cancelled).toNat) next.1 next.2
termination_by a.producer.left
decreasing_by exact this

theorem go_left (cancelled : Bool) (quota : Nat) (a : AsyncScan) (w : World) :
    (go cancelled quota a w).1 = a ∨
      Producer.Less (go cancelled quota a w).1.producer.left a.producer.left := by
  fun_induction go cancelled quota a w with
  | case1 => exact .inl rfl
  | case2 _ _ _ _ hs => exact .inr hs
  | case3 _ _ _ _ hs next _ ih =>
    rcases ih with h | h
    · rw [h]; exact .inr hs
    · exact .inr (Producer.less_trans h hs)

/-- How many records the producer delivers in one turn at most: 128, but one less when it begins
by taking what an opened segment holds. -/
def quota (a : AsyncScan) : Nat :=
  match a.producer with
  | .running _ (some _) => 127
  | _ => 128

theorem quota_pos (a : AsyncScan) : 0 < a.quota := by
  unfold quota
  split <;> omega

def turn (cancelled : Bool) (a : AsyncScan) (w : World) : AsyncScan × World :=
  go cancelled a.quota a w

theorem turn_left {cancelled : Bool} {a : AsyncScan} {w : World} (h : a.idle cancelled = false) :
    Producer.Less (turn cancelled a w).1.producer.left a.producer.left := by
  have hs := step_left (w := w) h
  have hq := a.quota_pos
  rw [turn, go, dif_neg (by simp [h]; omega)]
  dsimp only
  split
  · exact hs
  · rcases go_left cancelled (a.quota - (a.delivers cancelled).toNat)
      (step cancelled a w).1 (step cancelled a w).2 with hg | hg
    · rw [hg]; exact hs
    · exact Producer.less_trans hg hs

def stop (a : AsyncScan) : AsyncScan := { a with done := true, receiving := false }

def receiveEnd (a : AsyncScan) : Received × AsyncScan :=
  match a.producer with
  | .ended _ => (.pending, { a with done := true, awaiting := true })
  | _ =>
    match a.error with
    | some e => (.error e, { a with done := true, awaiting := false, error := none })
    | none => (.ended, { a with done := true, awaiting := false })

def receive (cancelled : Bool) (a : AsyncScan) : Received × AsyncScan :=
  if a.awaiting then a.receiveEnd
  else if a.done || cancelled then (.ended, a.stop)
  else
    match a.queue with
    | r :: rest => (.record r, { a with queue := rest })
    | [] => if a.producer.isOver then a.receiveEnd else (.pending, a)

@[simp] theorem cancelled_receiveEnd (a : AsyncScan) : a.receiveEnd.2.cancelled = a.cancelled := by
  unfold receiveEnd
  split
  · rfl
  · split <;> rfl

@[simp] theorem cancelled_receive (cancelled : Bool) (a : AsyncScan) :
    (a.receive cancelled).2.cancelled = a.cancelled := by
  unfold receive
  split
  · exact cancelled_receiveEnd a
  split
  · rfl
  split
  · rfl
  split
  · exact cancelled_receiveEnd a
  · rfl

theorem receiveEnd_ne_record {a a' : AsyncScan} {r : Record} :
    a.receiveEnd ≠ (.record r, a') := by
  unfold receiveEnd
  split
  · simp
  · split <;> simp

theorem receive_record {cancelled : Bool} {a a' : AsyncScan} {r : Record}
    (h : a.receive cancelled = (.record r, a')) :
    a'.producer = a.producer ∧ a'.queue.length < a.queue.length := by
  unfold receive at h
  split at h
  · exact absurd h receiveEnd_ne_record
  split at h
  · simp at h
  split at h
  · rename_i hq
    simp only [Prod.mk.injEq] at h
    simp [← h.2, hq]
  split at h
  · exact absurd h receiveEnd_ne_record
  · simp at h

theorem receiveEnd_pending {cancelled : Bool} {a a' : AsyncScan}
    (h : a.receiveEnd = (.pending, a')) :
    a'.producer = a.producer ∧ a'.idle cancelled = false := by
  unfold receiveEnd at h
  split at h
  · rename_i hp
    simp only [Prod.mk.injEq, true_and] at h
    subst h
    exact ⟨rfl, by simp [idle, hp]⟩
  · split at h <;> simp at h

theorem receive_pending {cancelled : Bool} {a a' : AsyncScan}
    (h : a.receive cancelled = (.pending, a')) :
    a'.producer = a.producer ∧ a'.idle cancelled = false := by
  unfold receive at h
  split at h
  · exact receiveEnd_pending h
  split at h
  · simp at h
  split at h
  · simp at h
  rename_i hq
  split at h
  · exact receiveEnd_pending h
  · rename_i ho
    simp only [Prod.mk.injEq, true_and] at h
    subst h
    refine ⟨rfl, ?_⟩
    unfold idle
    split
    · rename_i hp
      simp [hp, Producer.isOver] at ho
    · have := a.capacity_pos
      simp [hq]
      omega
    · rfl

def cancel (a : AsyncScan) : AsyncScan := { a with cancelled := true }

def close (a : AsyncScan) : AsyncScan := { a with receiving := false }

def isFinished (a : AsyncScan) : Bool := a.producer = .exited

end AsyncScan

end RecordLog
