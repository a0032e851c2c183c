import Mathlib
import RecordLog.Proofs.Runs

/-!
# Operations that succeed

An `Outline` is what a log is but for its salts and its files: which payloads are in which segment.
If operations succeed, it alone decides what they answer and which outline comes next, so two logs
of the same outline cannot be told apart by them.
-/

namespace RecordLog

open Record Segment

structure Outline where
  sealed : List (List Bytes)
  live : List Bytes
  capacity : Nat
  stats : Stats

namespace Outline

def base (o : Outline) : Nat := extent o.sealed.flatten

def stop (o : Outline) : Nat := o.base + extent o.live

def state (o : Outline) : BufferState :=
  ⟨o.base, extent o.live, o.capacity, o.live.length, bufferFileName o.base, 0⟩

def fits (o : Outline) (n : Nat) : Bool := o.live.isEmpty || decide (extent o.live + n ≤ o.capacity)

def rotate (o : Outline) (capacity : Nat) : Outline :=
  { o with sealed := o.sealed ++ [o.live], live := [], capacity }

def push (o : Outline) (data : Bytes) : Outline :=
  { o with live := o.live ++ [data], stats := o.stats.observeValue data.length }

def after (capacity : Nat) (o : Outline) : Action → Option Nat × Outline
  | .append data _ =>
    let o := ((if o.fits (size data) then o else o.rotate capacity).push data)
    (some o.stop, o)
  | .sealLive => (none, if o.live.isEmpty then o else o.rotate capacity)
  | .checkpoint => (some o.stop, o)
  | .observeKey keySize _ => (none, { o with stats := o.stats.observeKey keySize })
  | .putCheckpoint _ _ => (none, o)

def run (capacity : Nat) : List Action → Outline → List (Option Nat) × Outline
  | [], o => ([], o)
  | a :: actions, o =>
    let (answer, o) := o.after capacity a
    let (answers, o) := run capacity actions o
    (answer :: answers, o)

end Outline

def answers : List Step → Writer × World → List (Except Stop (Option Nat))
  | [], _ => []
  | step :: steps, s => (step.take s).1 :: answers steps (step.take s).2

def Log.outline (l : Log) (writer : Writer) : Outline :=
  ⟨l.sealed.map Segment.payloads, l.live.payloads, writer.buffer.capacity, writer.stats⟩

variable {q : Place} {l l' : Log} {c c' : Catalog} {writer : Writer} {w : World}
  {s s' : Writer × World}

namespace Log

theorem base_outline (l : Log) (writer : Writer) : (l.outline writer).base = l.base := by
  rw [Outline.base, base, span_eq, outline, List.flatMap_def]

theorem stop_outline (l : Log) (writer : Writer) : (l.outline writer).stop = l.stop := by
  rw [Outline.stop, base_outline]
  rfl

theorem state_outline (l : Log) (writer : Writer) :
    { l.state writer.buffer.capacity with salt := 0 } = (l.outline writer).state := by
  rw [Outline.state, base_outline]
  rfl

theorem records_outline (l : Log) :
    l.records = Segment.records 0 ((l.sealed.map Segment.payloads ++ [l.live.payloads]).map
      fun ps => ⟨ps, 0⟩) := by
  have h (start : Nat) (ss : List Segment) : Segment.records start ss =
      Segment.records start ((ss.map Segment.payloads).map fun ps => ⟨ps, 0⟩) := by
    induction ss generalizing start with
    | nil => rfl
    | cons s ss ih =>
      simp only [List.map_cons, Segment.records]
      rw [ih]
      rfl
  rw [records, h, List.map_append]
  rfl

end Log

theorem Writer.Carries.fits_eq (h : Writer.Carries q l c writer w) (n : Nat) :
    writer.buffer.fits n = (l.outline writer).fits n := by
  rw [BufferState.fits, Outline.fits, h.pos_eq, Log.outline]
  congr 1
  rw [Bool.eq_iff_iff, beq_iff_eq, List.isEmpty_iff]
  exact extent_eq_zero

theorem Log.outline_rotate (l : Log) (salt : UInt64) (next : Buffer) :
    (l.rotate salt).outline { writer with buffer := next } =
      (l.outline writer).rotate next.capacity := by
  simp [outline, rotate, Outline.rotate]

theorem Writer.MadeRoom.outline_eq {data : Bytes} {l₁ : Log} {c₁ : Catalog} {s₁ : Writer × World}
    (h : Carries q l c writer w) (hm : MadeRoom q l c writer w data l₁ c₁ s₁) :
    (if (l.outline writer).fits (size data) then l.outline writer
      else (l.outline writer).rotate writer.config.capacity) = l₁.outline s₁.1 := by
  rw [← h.fits_eq]
  cases hm with
  | fits hf => rw [if_pos hf]
  | sealed hf _ hcap _ _ => rw [hf, if_neg Bool.false_ne_true, Log.outline_rotate, hcap]

theorem Outcome.outline_eq {a : Action} {n : Option Nat} (h : Writer.Carries q l c writer w)
    (ho : Outcome q l c writer w a (.ok n) l' c' s') :
    (l.outline writer).after writer.config.capacity a = (n, l'.outline s'.1) := by
  cases ho with
  | appended hroom _ _ =>
    rw [Outline.after, hroom.outline_eq h, ← Log.stop_outline _ (Writer.withRecord _ _)]
    rfl
  | empty hnil =>
    have hempty : (l.outline writer).live.isEmpty = true := List.isEmpty_iff.2 hnil
    rw [Outline.after, if_pos hempty]
  | sealed hne hcap _ _ =>
    have hlive : (l.outline writer).live.isEmpty = false := List.isEmpty_eq_false_iff.2 hne
    rw [Outline.after, hlive, if_neg Bool.false_ne_true, Log.outline_rotate, hcap]
  | kept _ _ =>
    rw [Outline.after, Log.stop_outline]
    rfl
  | observed => rfl
  | named _ _ => rfl

/-- Operations that all succeed go by the outline. -/
theorem Settled.outline_eq (h : Settled q l c s) (steps : List Step)
    (hok : ∀ answer ∈ answers steps s, ∃ n, answer = .ok n) :
    ∃ l' c', Follows q l c s l' c' (RecordLog.run steps s).2 ∧
      answers steps s =
        ((l.outline s.1).run s.1.config.capacity (steps.map Step.action)).1.map .ok ∧
      l'.outline (RecordLog.run steps s).2.1 =
        ((l.outline s.1).run s.1.config.capacity (steps.map Step.action)).2 := by
  induction steps generalizing l c s with
  | nil => exact ⟨l, c, h.refl, rfl, rfl⟩
  | cons step steps ih =>
    rw [answers, List.forall_mem_cons] at hok
    obtain ⟨⟨n, hn⟩, hok⟩ := hok
    obtain ⟨l₁, c₁, s₁, ho, hs₁, hf₁⟩ := h.take_outcome step
    obtain ⟨l₂, c₂, hf₂, hanswers, hrun⟩ := ih hf₁.settled hok
    rw [hn] at ho
    have hafter := ho.outline_eq (h.ready step.circumstances).carries
    have hsame : (step.take s).2.1 = s₁.1 := by rw [hs₁]
    rw [hf₁.config, hsame] at hanswers hrun
    refine ⟨l₂, c₂, hf₁.trans hf₂, ?_, ?_⟩
    · rw [answers, hn, List.map_cons, Outline.run, hafter, hanswers]
      rfl
    · rw [List.map_cons, Outline.run, hafter]
      exact hrun

end RecordLog
