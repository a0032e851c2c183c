import Mathlib
import RecordLog.Proofs.Outcomes

/-!
# What operations tell

A `Ledger` is kept from what operations answer, without a look at any file or table: the records of
a log, the position up to which they are durable, the statistics at the last checkpoint, and the
positions kept under names. Only after an operation that failed does it ask the writer whether the
live segment was sealed nevertheless. `Ledger.Tells` says that it agrees with the log and the index.
-/

namespace RecordLog

open Record Segment

structure Ledger where
  /-- Payloads, each with the position where it ends. -/
  records : List (Bytes × Nat) := []
  durable : Nat := 0
  stats : Stats := {}
  names : Table String Nat := {}

namespace Action

def kept : Action → Except Stop (Option Nat) → Option Nat
  | .checkpoint, .ok n => n
  | _, _ => none

def named (names : Table String Nat) : Action → Except Stop (Option Nat) → Table String Nat
  | .putCheckpoint name pos, .ok _ => names.insert name pos
  | _, _ => names

/-- Whether all that was in the log before an operation is durable after it. A checkpoint or a seal
that succeeds sees to that, and so does an append if its record did not fit. Where an operation
failed, a segment was sealed if the live one starts elsewhere. -/
def covers (a : Action) (answer : Except Stop (Option Nat)) (b b' : BufferState) : Bool :=
  match answer with
  | .error _ => decide (b'.start ≠ b.start)
  | .ok _ =>
    match a with
    | .checkpoint => true
    | .sealLive => true
    | .append data _ => !b.fits (size data)
    | _ => false

end Action

namespace Ledger

/-- Where the log ends, as it was told last. -/
def stop (g : Ledger) : Nat := (g.records.getLast?.map Prod.snd).getD 0

def after (g : Ledger) (a : Action) (answer : Except Stop (Option Nat)) (writer writer' : Writer) :
    Ledger where
  records := g.records ++ a.appended answer
  durable := if a.covers answer writer.buffer.state writer'.buffer.state then g.stop else g.durable
  stats := if (a.kept answer).isSome then writer.stats else g.stats
  names := a.named g.names answer

/-- The ledger once all that is not durable is lost. -/
def cut (g : Ledger) : Ledger := { g with records := g.records.filter (·.2 ≤ g.durable) }

/-- A ledger agrees with a log and its index. -/
structure Tells (g : Ledger) (l : Log) (c : Catalog) : Prop where
  records : g.records = told 0 l.payloads
  durable : g.durable = l.durable
  stats : g.stats = c.stats.getD {}
  names : g.names = c.checkpoints

end Ledger

theorem bounds_of_mem_told {pos : Nat} {ps : List Bytes} {x : Bytes × Nat} (h : x ∈ told pos ps) :
    pos < x.2 ∧ x.2 ≤ pos + extent ps := by
  induction ps generalizing pos with
  | nil => simp [told] at h
  | cons p ps ih =>
    rw [told, List.mem_cons] at h
    have := size_pos p
    rw [extent_cons]
    rcases h with rfl | h
    · dsimp only
      omega
    · have := ih h
      omega

theorem getLast?_told (pos : Nat) (ps : List Bytes) :
    ((told pos ps).getLast?.map Prod.snd).getD pos = pos + extent ps := by
  rcases List.eq_nil_or_concat ps with rfl | ⟨ps, p, rfl⟩
  · rfl
  · rw [List.concat_eq_append, told_append, told, told, List.getLast?_concat]
    simp [Nat.add_assoc]

theorem filter_told (ps qs : List Bytes) :
    (told 0 (ps ++ qs)).filter (·.2 ≤ extent ps) = told 0 ps := by
  rw [told_append, List.filter_append, List.filter_eq_self.2, List.filter_eq_nil_iff.2,
    List.append_nil]
  all_goals
    intro x hx
    have := bounds_of_mem_told hx
    simp only [decide_eq_true_eq]
    omega

variable {q : Place} {l l' : Log} {c c' : Catalog} {writer : Writer} {w : World} {g : Ledger}
  {a : Action} {answer : Except Stop (Option Nat)} {s' : Writer × World}

namespace Ledger

/-- A ledger counts from zero up to where the log ends, and what is durable is a front of that. -/
def Counts (g : Ledger) (stop : Nat) : Prop :=
  ∃ ps rest, g.records = told 0 (ps ++ rest) ∧ g.durable = extent ps ∧ extent (ps ++ rest) = stop

namespace Counts

variable {stop : Nat}

theorem empty : Counts {} 0 := ⟨[], [], rfl, rfl, rfl⟩

theorem stop_eq (h : g.Counts stop) : g.stop = stop := by
  obtain ⟨ps, rest, hrecords, -, hstop⟩ := h
  rw [Ledger.stop, hrecords, getLast?_told, hstop, Nat.zero_add]

theorem cut (h : g.Counts stop) : g.cut.Counts g.durable := by
  obtain ⟨ps, rest, hrecords, hdurable, -⟩ := h
  refine ⟨ps, [], ?_, hdurable, ?_⟩
  · rw [Ledger.cut, hrecords, hdurable, filter_told, List.append_nil]
  · rw [List.append_nil, hdurable]

theorem after (h : g.Counts stop) (writer writer' : Writer)
    (ha : a.appended answer = told stop ((a.appended answer).map Prod.fst)) :
    (g.after a answer writer writer').Counts
      (stop + extent ((a.appended answer).map Prod.fst)) := by
  have hend := h.stop_eq
  obtain ⟨ps, rest, hrecords, hdurable, hstop⟩ := h
  have hafter : (g.after a answer writer writer').records =
      told 0 (ps ++ rest ++ (a.appended answer).map Prod.fst) := by
    rw [told_append, Nat.zero_add, hstop, ← ha, ← hrecords]
    rfl
  cases hcovers : a.covers answer writer.buffer.state writer'.buffer.state with
  | true =>
    refine ⟨ps ++ rest, _, hafter, ?_, by rw [extent_append, hstop]⟩
    rw [Ledger.after, hcovers, if_pos rfl, hend, hstop]
  | false =>
    rw [List.append_assoc] at hafter
    refine ⟨ps, _, hafter, ?_, by rw [← List.append_assoc, extent_append, hstop]⟩
    rw [Ledger.after, hcovers, if_neg Bool.false_ne_true, hdurable]

end Counts

end Ledger

namespace Ledger.Tells

theorem stop_eq (h : g.Tells l c) : g.stop = l.stop := by
  rw [Ledger.stop, h.records, getLast?_told, Nat.zero_add, Log.stop_eq]

theorem cut (h : g.Tells l c) : g.cut.Tells l.cut c where
  records := by
    have hsplit : l.payloads = l.cut.payloads ++ l.live.payloads.drop l.kept := by
      simp [Log.payloads, Log.cut]
    rw [Ledger.cut, h.records, h.durable, Log.durable, Log.stop_eq, hsplit]
    exact filter_told _ _
  durable := by
    rw [Log.durable, Log.cut_cut]
    exact h.durable
  stats := h.stats
  names := h.names

end Ledger.Tells

namespace Outcome

theorem durable_push {l : Log} (h : l.kept ≤ l.live.payloads.length) (x : Bytes) :
    (l.push x).durable = l.durable := by
  rw [Log.durable, Log.cut_push h, Log.durable]

theorem durable_rotate (l : Log) (salt : UInt64) : (l.rotate salt).durable = l.stop := by
  rw [Log.durable, Log.cut_rotate, Log.stop_rotate]

theorem durable_of_nil {l : Log} (h : l.live.payloads = []) : l.durable = l.stop := by
  simp [Log.durable, Log.cut, Log.stop, Log.base, Segment.size, h]

theorem durable_madeRoom {data : Bytes} {l₁ : Log} {c₁ : Catalog} {s₁ : Writer × World}
    (hm : Writer.MadeRoom q l c writer w data l₁ c₁ s₁) :
    l₁.durable = if writer.buffer.fits (size data) then l.durable else l.stop := by
  cases hm with
  | fits hf => rw [if_pos hf]
  | sealed hf _ _ _ _ =>
    rw [hf, if_neg Bool.false_ne_true]
    exact durable_rotate l _

/-- Only checkpoints and seals make anything durable. -/
theorem durable_eq (h : Writer.Carries q l c writer w)
    (ho : Outcome q l c writer w a answer l' c' s') :
    l'.durable = if a.covers answer writer.buffer.state s'.1.buffer.state then l.stop
      else l.durable := by
  cases ho with
  | appended hroom _ _ =>
    rw [durable_push (hroom.carries h).kept, durable_madeRoom hroom]
    cases hf : writer.buffer.fits _ <;> simp [Action.covers, Buffer.state, hf]
  | refused _ => cases a <;> simp [Action.covers]
  | madeRoom hfits hroom _ =>
    have hcar := hroom.carries h
    rw [durable_madeRoom hroom, hfits, if_neg Bool.false_ne_true]
    cases hroom with
    | fits hf => rw [hf] at hfits; cases hfits
    | @sealed _ _ next _ hf _ _ hc _ =>
      have hlt := Writer.base_lt_stop (Writer.not_fits_pos h hf)
      have hstart : next.start = l.stop := hc.start_eq.trans (Log.base_rotate _ _)
      refine (if_pos (decide_eq_true ?_)).symm
      change next.start ≠ writer.buffer.start
      rw [hstart, h.start_eq]
      exact Nat.ne_of_gt hlt
  | empty hnil => exact durable_of_nil hnil
  | sealed _ _ _ _ => exact durable_rotate l _
  | kept _ _ =>
    rw [Log.durable, Log.cut_keep]
    rfl
  | _ => simp [Action.covers]

theorem cut_grows (h : Writer.Carries q l c writer w)
    (ho : Outcome q l c writer w a answer l' c' s') : l.cut.Grows l'.cut := by
  have hrotate (salt : UInt64) : l.cut.Grows (l.rotate salt).cut := by
    rw [Log.cut_rotate]
    exact (Log.Grows.ofCut l).trans (.rotate l salt)
  have hmade {data : Bytes} {l₁ : Log} {c₁ : Catalog} {s₁ : Writer × World}
      (hm : Writer.MadeRoom q l c writer w data l₁ c₁ s₁) : l.cut.Grows l₁.cut := by
    cases hm with
    | fits _ => exact .refl _
    | sealed _ _ _ _ _ => exact hrotate _
  cases ho with
  | appended hroom _ _ =>
    rw [Log.cut_push (hroom.carries h).kept]
    exact hmade hroom
  | madeRoom _ hroom _ => exact hmade hroom
  | sealed _ _ _ _ => exact hrotate _
  | kept _ _ =>
    rw [Log.cut_keep]
    exact (Log.Grows.ofCut l).trans (.keep l)
  | _ => exact .refl _

theorem stats_eq (ho : Outcome q l c writer w a answer l' c' s') :
    c'.stats = if (a.kept answer).isSome then some writer.stats else c.stats := by
  cases ho with
  | appended hroom _ _ => cases hroom <;> rfl
  | refused _ => cases a <;> rfl
  | madeRoom _ hroom _ => cases hroom <;> rfl
  | _ => rfl

theorem names_eq (ho : Outcome q l c writer w a answer l' c' s') :
    c'.checkpoints = a.named c.checkpoints answer := by
  cases ho with
  | appended hroom _ _ => cases hroom <;> rfl
  | refused _ => cases a <;> rfl
  | madeRoom _ hroom _ => cases hroom <;> rfl
  | _ => rfl

theorem tells (h : Writer.Carries q l c writer w)
    (ho : Outcome q l c writer w a answer l' c' s') (hg : g.Tells l c) :
    (g.after a answer writer s'.1).Tells l' c' where
  records := by
    rw [Ledger.after, hg.records, ho.payloads_eq, told_append, Nat.zero_add, ← Log.stop_eq,
      ← ho.appended_eq_told]
  durable := by
    rw [Ledger.after, ho.durable_eq h, hg.stop_eq, hg.durable]
  stats := by
    rw [Ledger.after, ho.stats_eq, hg.stats]
    cases (a.kept answer).isSome <;> rfl
  names := by rw [Ledger.after, ho.names_eq, hg.names]

theorem small_stats (ho : Outcome q l c writer w a answer l' c' s') (h : writer.stats.Small) :
    s'.1.stats.Small := by
  cases ho with
  | @appended data hd l₁ c₁ s₁ w' hroom _ _ =>
    have hdata : data.length < 2 ^ 63 := hd
    rw [← hroom.config.2.2.2] at h
    exact ⟨h.1, Nat.max_lt.2 ⟨h.2, by omega⟩⟩
  | madeRoom _ hroom _ => exact hroom.config.2.2.2 ▸ h
  | @observed keySize hk => exact ⟨Nat.max_lt.2 ⟨h.1, hk⟩, h.2⟩
  | _ => exact h

theorem capacity_le (ho : Outcome q l c writer w a answer l' c' s') :
    s'.1.buffer.capacity = writer.buffer.capacity ∨
      s'.1.buffer.capacity = writer.config.capacity := by
  have hmade {data : Bytes} {l₁ : Log} {c₁ : Catalog} {s₁ : Writer × World}
      (hm : Writer.MadeRoom q l c writer w data l₁ c₁ s₁) :
      s₁.1.buffer.capacity = writer.buffer.capacity ∨
        s₁.1.buffer.capacity = writer.config.capacity := by
    cases hm with
    | fits _ => exact .inl rfl
    | sealed _ _ hcap _ _ => exact .inr hcap
  cases ho with
  | appended hroom _ _ =>
    have := hmade hroom
    exact this
  | madeRoom _ hroom _ =>
    have := hmade hroom
    exact this
  | sealed _ hcap _ _ => exact .inr hcap
  | _ => exact .inl rfl

end Outcome

end RecordLog
