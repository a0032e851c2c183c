import Mathlib
import RecordLog.Proofs.Passages
import RecordLog.Proofs.Recovery

/-!
# Segments within their capacity

Only a segment of a single record exceeds its capacity. This is so for the live segment, for what
the index describes of it, and for every chunk, by the capacity of the segment that it was made of.
-/

namespace RecordLog

/-- With two or more records a segment is within its capacity. -/
structure InCapacity (capacity size records : Nat) : Prop where
  many : 2 ≤ records → size ≤ capacity
  beyond : capacity < size → records = 1

theorem BufferState.Sized.inCapacity {b : BufferState} (h : b.Sized) :
    InCapacity b.capacity b.pos b.records :=
  ⟨h.within, h.records_eq_one⟩

variable {cfg : Config} {q : Place} {c c' : Catalog} {n n' n'' : Moment} {b : BufferState}
  {chunk : Chunk}

structure Seals (cfg : Config) (n n' : Moment) (b : BufferState) (chunk : Chunk) : Prop where
  turn : Turn cfg n n'
  live : ∃ writer, n.writer = some writer ∧ writer.buffer.toBufferState = b
  made : chunk = b.chunk chunk.diskSize
  listed : ∃ c c', n.Indexes c ∧ n'.Indexes c' ∧
    c'.chunks.entries = c.chunks.entries ++ [(b.start, chunk)]

/-- At some time in its life a log made a chunk of the live segment that it had then. -/
def Moment.HadSealed (cfg : Config) (n : Moment) (b : BufferState) (chunk : Chunk) : Prop :=
  ∃ m m', Life cfg m.writer m.index m.world m.ledger ∧ Seals cfg m m' b chunk ∧
    Relation.ReflTransGen (Turn cfg) m' n

theorem Moment.HadSealed.turn (h : n.HadSealed cfg b chunk) (ht : Turn cfg n n') :
    n'.HadSealed cfg b chunk := by
  obtain ⟨m, m', hlife, hseals, hturns⟩ := h
  exact ⟨m, m', hlife, hseals, hturns.tail ht⟩

theorem Moment.Books.entries (h : n.Books cfg q c) (h' : n'.Books cfg q c') (ht : Turn cfg n n')
    (hp : Passage c n c' n') :
    c'.chunks.entries = c.chunks.entries ∨
      ∃ b chunk, b.Sized ∧ Seals cfg n n' b chunk ∧
        c'.chunks.entries = c.chunks.entries ++ [(b.start, chunk)] := by
  cases hp with
  | @act writer id w g step c' pieces hposting _ =>
    obtain ⟨-, -, hbooks⟩ := h.writer writer rfl
    rcases hposting.entries_eq hbooks.describes with heq | ⟨diskSize, next, -, -, heq⟩
    · exact .inl heq
    · refine .inr ⟨_, _, hbooks.describes.sized, ?_, heq⟩
      exact ⟨ht, ⟨writer, rfl, rfl⟩, rfl, c, c', h.indexes, h'.indexes, heq⟩
  | leave _ _ _ => exact .inl rfl
  | enter _ _ _ _ _ => exact .inl rfl

theorem Life.made (h : Life cfg n.writer n.index n.world n.ledger) :
    ∃ q c, n.Books cfg q c ∧
      ∀ e ∈ c.chunks.entries, ∃ b : BufferState, b.Sized ∧ n.HadSealed cfg b e.2 := by
  refine Life.turns (motive := fun n => ∃ q c, n.Books cfg q c ∧
    ∀ e ∈ c.chunks.entries, ∃ b : BufferState, b.Sized ∧ n.HadSealed cfg b e.2) ?_ ?_ h
  · intro w w' op writer hs hr hf hop
    obtain ⟨q, hbooks, -⟩ := hf.books hs hr hop
    exact ⟨q, _, hbooks, fun e he => by cases he⟩
  · rintro n n' hlife ⟨q, c, hbooks, hmade⟩ ht
    obtain ⟨c', hbooks', hp⟩ := ht.books hbooks
    have hold (e : Nat × Chunk) (he : e ∈ c.chunks.entries) :
        ∃ b : BufferState, b.Sized ∧ n'.HadSealed cfg b e.2 := by
      obtain ⟨b, hb, hsealed⟩ := hmade e he
      exact ⟨b, hb, hsealed.turn ht⟩
    refine ⟨q, c', hbooks', fun e he => ?_⟩
    rcases hbooks.entries hbooks' ht hp with heq | ⟨b, chunk, hb, hseals, heq⟩
    · exact hold e (heq ▸ he)
    · rw [heq, List.mem_append, List.mem_singleton] at he
      rcases he with he | rfl
      · exact hold e he
      · exact ⟨b, hb, n, n', hlife, hseals, .refl⟩

/-- All through its life a log has a live segment within its capacity, and so has its index. Every
chunk was made of the live segment of its time and is within the capacity of that one. A segment
beyond its capacity has exactly one record. -/
theorem Life.within_capacity (h : Life cfg n.writer n.index n.world n.ledger) :
    (∀ writer, n.writer = some writer →
      InCapacity writer.buffer.capacity writer.buffer.pos writer.buffer.records) ∧
    ∃ c, n.Indexes c ∧ (∀ s, c.buffer = some s → InCapacity s.capacity s.pos s.records) ∧
      ∀ e ∈ c.chunks.entries, ∃ b, n.HadSealed cfg b e.2 ∧
        InCapacity b.capacity e.2.size e.2.records := by
  obtain ⟨q, c, hbooks, hmade⟩ := h.made
  refine ⟨fun writer hw => ?_, c, hbooks.indexes, fun s hs => ?_, fun e he => ?_⟩
  · obtain ⟨-, -, hwriter⟩ := hbooks.writer writer hw
    exact hwriter.describes.sized.inCapacity
  · obtain ⟨s', hs', -, hdescribes⟩ := hbooks.durable
    rw [hs] at hs'
    obtain rfl := Option.some.inj hs'
    exact hdescribes.sized.inCapacity
  · obtain ⟨b, hb, m, m', hlife, hseals, hturns⟩ := hmade e he
    refine ⟨b, ⟨m, m', hlife, hseals, hturns⟩, ?_⟩
    rw [hseals.made]
    exact hb.inCapacity

/-- Two small records filled a segment, one was too large for the next, and after that the log was
reopened with another capacity. -/
theorem within_capacity_reopened :
    ∃ (n : Moment) (writer : Writer) (c : Catalog),
      Life .plain n.writer n.index n.world n.ledger ∧ n.writer = some writer ∧
      (writer.buffer.capacity, writer.buffer.pos, writer.buffer.records) = (9, 7, 2) ∧
      n.Indexes c ∧ (c.chunks.values.map fun chunk => (chunk.size, chunk.records)) = [(4, 2), (9, 1)] ∧
      ∀ e ∈ c.chunks.entries, ∃ b, n.HadSealed .plain b e.2 ∧
        InCapacity b.capacity e.2.size e.2.records := by
  have hleft := (((((Life.found World.sound_blank (World.Calm.returns rfl) (by decide)
    Founding.blank rfl).act ⟨.append [1, 2] (by decide), {}⟩).act ⟨.append [] (by decide), {}⟩).act
      ⟨.append [1, 2, 3, 4, 5, 6, 7, 8] (by decide), {}⟩).act ⟨.checkpoint, {}⟩).drop
  have halike : Config.plain.Alike { Config.plain with capacity := 9 } := ⟨rfl, rfl, rfl⟩
  let first : Step := ⟨.append [5] (by decide), {}⟩
  let second : Step := ⟨.append [6, 7, 8, 9] (by decide), {}⟩
  obtain ⟨writer, w, hlife, hfacts⟩ := hleft.reopen halike (by decide)
    (.of_open (by decide +kernel)) (fun writer w =>
      let s := second.take (first.take (writer, w)).2
      (s.2.1.buffer.capacity, s.2.1.buffer.pos, s.2.1.buffer.records) == (9, 7, 2) &&
        (s.2.2.tables 0).any fun t => !t.inFile && (t.answer .chunks).toOption.any
          (·.1.map (fun chunk => (chunk.size, chunk.records)) == [(4, 2), (9, 1)]))
    (by decide +kernel)
  rw [Bool.and_eq_true, beq_iff_eq] at hfacts
  obtain ⟨writer, w, g, hlife, hbuffer, htables⟩ : ∃ writer w g, Life .plain (some writer) 0 w g ∧
      (writer.buffer.capacity, writer.buffer.pos, writer.buffer.records) = (9, 7, 2) ∧
      (w.tables 0).any (fun t => !t.inFile && (t.answer .chunks).toOption.any
        (·.1.map (fun chunk => (chunk.size, chunk.records)) == [(4, 2), (9, 1)])) = true :=
    ⟨_, _, _, (hlife.act first).act second, hfacts⟩
  obtain ⟨-, c, ⟨t, ht, hrep⟩, -, hmade⟩ :=
    Life.within_capacity (n := ⟨some writer, 0, w, g⟩) hlife
  refine ⟨_, writer, c, hlife, rfl, hbuffer, ⟨t, ht, hrep⟩, ?_, hmade⟩
  rw [show w.tables 0 = some t from ht, Option.any_some] at htables
  cases t with
  | stored t => cases htables
  | plain c₀ =>
    obtain rfl : c₀ = c := hrep
    exact beq_iff_eq.1 htables

end RecordLog
