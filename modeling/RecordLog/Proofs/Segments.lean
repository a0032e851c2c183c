import Mathlib
import RecordLog.Proofs.ChunkFile
import RecordLog.Proofs.OpenedSegment

/-!
# A log as its segments

A `Log` is what a log holds, apart from all bytes: the payloads of each segment, and the salt each
live file had. `Segment.Sealed` says that the index and the folder hold a sealed segment: the chunk
decodes to its payloads, and a live file that was never removed still has the bytes it had.
-/

namespace RecordLog

open Record

/-- A segment as what it holds, and the salt of its live file. -/
structure Segment where
  payloads : List Bytes
  salt : UInt64

/-- A log as its segments. Of the live one the index describes some records. -/
structure Log where
  sealed : List Segment := []
  live : Segment
  kept : Nat := 0

namespace Segment

def size (s : Segment) : Nat := extent s.payloads

def span (ss : List Segment) : Nat := (ss.map size).sum

/-- Segments with the positions where they start. -/
def placed : (start : Nat) → List Segment → List (Nat × Segment)
  | _, [] => []
  | start, s :: ss => (start, s) :: placed (start + s.size) ss

@[simp] theorem span_nil : span [] = 0 := rfl

@[simp] theorem span_cons (s : Segment) (ss : List Segment) : span (s :: ss) = s.size + span ss := by
  simp [span]

@[simp] theorem span_append (ss ss' : List Segment) : span (ss ++ ss') = span ss + span ss' := by
  simp [span]

theorem span_eq (ss : List Segment) : span ss = extent (ss.flatMap Segment.payloads) := by
  induction ss with
  | nil => rfl
  | cons s ss ih => simp [ih, size]

theorem placed_append (start : Nat) (ss ss' : List Segment) :
    placed start (ss ++ ss') = placed start ss ++ placed (start + span ss) ss' := by
  induction ss generalizing start with
  | nil => simp [placed]
  | cons s ss ih => simp [placed, ih, Nat.add_assoc]

theorem bounds_of_mem_placed {start : Nat} {ss : List Segment} {p : Nat × Segment}
    (h : p ∈ placed start ss) : start ≤ p.1 ∧ p.1 + p.2.size ≤ start + span ss := by
  induction ss generalizing start with
  | nil => simp [placed] at h
  | cons s ss ih =>
    rw [placed, List.mem_cons] at h
    rw [span_cons]
    rcases h with rfl | h
    · dsimp only
      omega
    · have := ih h
      omega

def records : (start : Nat) → List Segment → List Record
  | _, [] => []
  | start, s :: ss => line start start s.payloads ++ records (start + s.size) ss

theorem records_append (start : Nat) (ss ss' : List Segment) :
    records start (ss ++ ss') = records start ss ++ records (start + span ss) ss' := by
  induction ss generalizing start with
  | nil => simp [records]
  | cons s ss ih => simp [records, ih, Nat.add_assoc]

theorem bounds_of_mem_records {start : Nat} {ss : List Segment} {r : Record}
    (h : r ∈ records start ss) :
    start ≤ r.start ∧ r.start < r.next ∧ r.next ≤ start + span ss := by
  induction ss generalizing start with
  | nil => simp [records] at h
  | cons s ss ih =>
    have hsize : s.size = extent s.payloads := rfl
    rw [records, List.mem_append] at h
    rw [span_cons]
    rcases h with h | h
    · have := bounds_of_mem_line h
      omega
    · have := ih h
      omega

theorem pairwise_records (start : Nat) (ss : List Segment) :
    (records start ss).Pairwise (·.next ≤ ·.start) := by
  induction ss generalizing start with
  | nil => exact .nil
  | cons s ss ih =>
    rw [records, List.pairwise_append]
    refine ⟨pairwise_line _ _ _, ih _, fun r hr r' hr' => ?_⟩
    exact (bounds_of_mem_line hr).2.2.trans (bounds_of_mem_records hr').1

/-- A sealed segment: its chunk in the index, the file of that, and what is left of its live file. -/
structure Sealed (cfg : Config) (q : Place) (d : Disk) (p : Nat × Segment) (e : Nat × Chunk) :
    Prop where
  key : e.1 = p.1
  file : e.2.file = chunkFileName p.1
  start : e.2.start = p.1
  size : e.2.size = p.2.size
  records : e.2.records = p.2.payloads.length
  nonempty : p.2.payloads ≠ []
  writable : ∀ x ∈ p.2.payloads, Writable x
  reaches : cfg.Reaches (chunkFileName p.1)
  liveReaches : cfg.Reaches (bufferFileName p.1)
  artifact : ∃ bytes, d.Holds (q ++ [chunkFileName p.1]) bytes ∧ bytes.length = e.2.diskSize ∧
    Chunk.Decodes cfg bytes (contents p.2.payloads)
  left : d.names.get? (q ++ [bufferFileName p.1]) = none ∨
    ∃ bytes, d.Holds (q ++ [bufferFileName p.1]) bytes ∧
      Written cfg.cipher ⟨p.1, p.2.salt⟩ 0 (p.2.payloads.map encode) bytes

variable {cfg : Config} {q : Place} {d d' : Disk} {p : Nat × Segment} {e : Nat × Chunk}

theorem Sealed.size_pos (h : Sealed cfg q d p e) : 0 < p.2.size := extent_pos h.nonempty

theorem Sealed.stop (h : Sealed cfg q d p e) : e.2.stop = p.1 + p.2.size := by
  rw [Chunk.stop, h.start, h.size]

theorem Sealed.frame (h : Sealed cfg q d p e)
    (hc : Disk.SameFile q (chunkFileName p.1) d d')
    (hl : Disk.SameFile q (bufferFileName p.1) d d') : Sealed cfg q d' p e :=
  { h with
    artifact := by
      obtain ⟨bytes, hb, hlen, hdec⟩ := h.artifact
      exact ⟨bytes, hc.holds hb, hlen, hdec⟩
    left := by
      rcases h.left with hn | ⟨bytes, hb, hw⟩
      · exact .inl (hl.names.trans hn)
      · exact .inr ⟨bytes, hl.holds hb, hw⟩ }

end Segment

open Segment

theorem flatten_map_encode (ps : List Bytes) : (ps.map encode).flatten = contents ps := rfl

theorem length_flatten_map_encode (ps : List Bytes) :
    (ps.map encode).flatten.length = extent ps := by
  rw [flatten_map_encode, length_contents]

namespace Log

def base (l : Log) : Nat := span l.sealed

def stop (l : Log) : Nat := l.base + l.live.size

def payloads (l : Log) : List Bytes := l.sealed.flatMap Segment.payloads ++ l.live.payloads

def records (l : Log) : List Record := Segment.records 0 (l.sealed ++ [l.live])

def state (l : Log) (capacity : Nat) : BufferState :=
  ⟨l.base, l.live.size, capacity, l.live.payloads.length, bufferFileName l.base, l.live.salt⟩

def chunk (l : Log) (diskSize : Nat) : Chunk :=
  ⟨chunkFileName l.base, l.base, l.live.size, diskSize, l.live.payloads.length⟩

def watermark (l : Log) : Watermark := ⟨l.base, l.live.size, l.live.salt⟩

theorem stop_eq (l : Log) : l.stop = extent l.payloads := by
  rw [stop, base, payloads, span_eq, extent_append]
  rfl

@[simp] theorem stop_watermark (l : Log) : l.watermark.stop = l.stop := rfl

def push (l : Log) (x : Bytes) : Log :=
  { l with live := { l.live with payloads := l.live.payloads ++ [x] } }

def rotate (l : Log) (salt : UInt64) : Log :=
  { sealed := l.sealed ++ [l.live], live := ⟨[], salt⟩ }

/-- The log after everything in it was made durable. -/
def keep (l : Log) : Log := { l with kept := l.live.payloads.length }

/-- The log after all that was not durable was lost. -/
def cut (l : Log) : Log :=
  { l with live := { l.live with payloads := l.live.payloads.take l.kept } }

/-- Where the part of the log ends that is durable. -/
def durable (l : Log) : Nat := l.cut.stop

@[simp] theorem base_push (l : Log) (x : Bytes) : (l.push x).base = l.base := rfl

@[simp] theorem base_cut (l : Log) : l.cut.base = l.base := rfl

@[simp] theorem cut_rotate (l : Log) (salt : UInt64) : (l.rotate salt).cut = l.rotate salt := rfl

theorem cut_push {l : Log} (h : l.kept ≤ l.live.payloads.length) (x : Bytes) :
    (l.push x).cut = l.cut := by
  simp only [cut, push, List.take_append_of_le_length h]

@[simp] theorem cut_cut (l : Log) : l.cut.cut = l.cut := by
  simp only [cut, List.take_take, Nat.min_self]

@[simp] theorem cut_keep (l : Log) : l.keep.cut = l.keep := by
  simp only [cut, keep, List.take_length]

theorem size_push (l : Log) (x : Bytes) : (l.push x).live.size = l.live.size + Record.size x := by
  simp [push, Segment.size]

@[simp] theorem base_rotate (l : Log) (salt : UInt64) : (l.rotate salt).base = l.stop := by
  simp [base, rotate, stop]

@[simp] theorem payloads_push (l : Log) (x : Bytes) : (l.push x).payloads = l.payloads ++ [x] := by
  simp [payloads, push]

@[simp] theorem payloads_rotate (l : Log) (salt : UInt64) :
    (l.rotate salt).payloads = l.payloads := by
  simp [payloads, rotate]

@[simp] theorem payloads_keep (l : Log) : l.keep.payloads = l.payloads := rfl

theorem stop_push (l : Log) (x : Bytes) : (l.push x).stop = l.stop + Record.size x := by
  simp [stop_eq]

@[simp] theorem stop_rotate (l : Log) (salt : UInt64) : (l.rotate salt).stop = l.stop := by
  simp [stop_eq]

/-- A later log of the same writer: the live segment is still live or was sealed, and in either
case it starts with the records it had. -/
def Grows (l l' : Log) : Prop :=
  ∃ s rest, l'.sealed ++ [l'.live] = l.sealed ++ s :: rest ∧ s.salt = l.live.salt ∧
    l.live.payloads <+: s.payloads

namespace Grows

theorem refl (l : Log) : l.Grows l := ⟨l.live, [], rfl, rfl, List.prefix_refl _⟩

theorem push (l : Log) (x : Bytes) : l.Grows (l.push x) :=
  ⟨(l.push x).live, [], rfl, rfl, List.prefix_append _ _⟩

theorem rotate (l : Log) (salt : UInt64) : l.Grows (l.rotate salt) :=
  ⟨l.live, [⟨[], salt⟩], by simp [Log.rotate], rfl, List.prefix_refl _⟩

theorem keep (l : Log) : l.Grows l.keep := ⟨l.live, [], rfl, rfl, List.prefix_refl _⟩

theorem ofCut (l : Log) : l.cut.Grows l := ⟨l.live, [], rfl, rfl, List.take_prefix _ _⟩

theorem cases {l l' : Log} (h : l.Grows l') :
    (l'.sealed = l.sealed ∧ l'.live.salt = l.live.salt ∧
        l.live.payloads <+: l'.live.payloads) ∨
      ∃ s rest, l'.sealed = l.sealed ++ s :: rest ∧ s.salt = l.live.salt ∧
        l.live.payloads <+: s.payloads := by
  obtain ⟨s, rest, heq, hsalt, hpre⟩ := h
  rcases List.eq_nil_or_concat rest with rfl | ⟨rest, s', rfl⟩
  · obtain ⟨h₁, h₂⟩ := List.append_inj' heq rfl
    cases h₂
    exact .inl ⟨h₁, hsalt, hpre⟩
  · right
    rw [List.concat_eq_append, ← List.cons_append, ← List.append_assoc] at heq
    obtain ⟨h₁, -⟩ := List.append_inj' heq rfl
    exact ⟨s, rest, h₁, hsalt, hpre⟩

theorem trans {l l' l'' : Log} (h : l.Grows l') (h' : l'.Grows l'') : l.Grows l'' := by
  obtain ⟨s', rest', heq', hsalt', hpre'⟩ := h'
  rcases h.cases with ⟨hs, hsalt, hpre⟩ | ⟨s, rest, hs, hsalt, hpre⟩
  · exact ⟨s', rest', hs ▸ heq', hsalt'.trans hsalt, hpre.trans hpre'⟩
  · exact ⟨s, rest ++ s' :: rest', by rw [heq', hs]; simp, hsalt, hpre⟩

end Grows

end Log

end RecordLog
