import Mathlib
import RecordLog.Proofs.Failures
import RecordLog.Proofs.Recovery

/-!
# Where a log is written down more than once

What a log consists of is told by its index, by the descriptor in it, by the writer, by the
watermark of its readers and by the files. `Catalog.Divides` says that the chunks of an index and the
files they stand for make up the log as far as the live segment, and `Writer.Agrees` that everything
that tells about the live segment tells the same.
-/

namespace RecordLog

open Record Segment

/-- Listed chunks that take up the log from one position to another, without a gap and without an
overlap, each under the position where it starts. -/
def Chunk.Tile : (start stop : Nat) → List (Nat × Chunk) → Prop
  | start, stop, [] => start = stop
  | start, stop, (key, c) :: rest =>
    key = start ∧ c.start = start ∧ 0 < c.size ∧ Tile c.stop stop rest

/-- Plain content that decodes to a number of whole records and nothing else. -/
def Record.Counts (content : Bytes) (n : Nat) : Prop :=
  ∃ records, ({ name := "", segment := 0, pos := 0, rest := content, lenient := false } :
    Cursor).drain 0 = (records, none) ∧ records.length = n

/-- The chunks of an index make up a log up to a position, and each has as many records as it
says. -/
structure Catalog.Divides (cfg : Config) (c : Catalog) (stop : Nat) (w : World) : Prop where
  tile : Chunk.Tile 0 stop c.chunks.entries
  counts : ∀ chunk ∈ c.chunks.values, ∃ content w', chunk.load cfg w = .ok content w' ∧
    Counts content chunk.records

/-- The live segment of a writer is described in the index, perhaps with less in it than it has by
now, and its watermark and its file are those of all it has. -/
structure Writer.Agrees (writer : Writer) (described : BufferState) (w : World) : Prop where
  start : described.start = writer.buffer.start
  salt : described.salt = writer.buffer.salt
  capacity : described.capacity = writer.buffer.capacity
  name : described.file = writer.buffer.file
  pos : described.pos ≤ writer.buffer.pos
  records : described.records ≤ writer.buffer.records
  mark : w.marks[writer.mark]? = some writer.buffer.watermark
  /-- What the live segment holds is read back, if it holds anything. -/
  counts : ∃ content, content.length = writer.buffer.pos ∧ Counts content writer.buffer.records ∧
    (content ≠ [] → ∃ w', writer.buffer.content writer.config w = .ok content w')
  file : ∃ f, w.disk.find (writer.config.locate writer.buffer.file) = .ok (.file f) ∧
    (w.disk.content f).size = writer.buffer.pos

structure Store.Lists (id : StoreId) (c : Catalog) (w : World) : Prop where
  chunks : ∃ w', Store.read id (Program.request .chunks) w = .ok c.chunks.values w'
  buffer : ∃ w', Store.read id (Program.request .buffer) w = .ok c.buffer w'

variable {cfg : Config} {q : Place} {l : Log} {c : Catalog} {capacity : Nat} {id : StoreId}
  {w : World} {g : Ledger} {writer : Writer} {d : Disk}

theorem length_line (segment pos : Nat) (ps : List Bytes) :
    (line segment pos ps).length = ps.length := by
  induction ps generalizing pos with
  | nil => rfl
  | cons p ps ih => simp [line, ih]

theorem Record.counts_contents {ps : List Bytes} (hp : ∀ p ∈ ps, Writable p) :
    Counts (contents ps) ps.length :=
  ⟨_, Cursor.drain_contents rfl rfl hp 0, by
    rw [filter_line_of_le (Nat.le_refl _), length_line]⟩

theorem Segment.Sealed.tile {start : Nat} {ss : List Segment} {es : List (Nat × Chunk)}
    (h : List.Forall₂ (Sealed cfg q d) (placed start ss) es) :
    Chunk.Tile start (start + span ss) es := by
  induction ss generalizing start es with
  | nil =>
    cases h
    exact (Nat.add_zero start).symm
  | cons s ss ih =>
    obtain ⟨⟨key, chunk⟩, es, he, hrest, rfl⟩ := List.forall₂_cons_left_iff.1 h
    refine ⟨he.key, he.start, he.size ▸ he.size_pos, ?_⟩
    have hstop : chunk.stop = start + s.size := he.stop
    rw [hstop, span_cons, ← Nat.add_assoc]
    exact ih hrest

theorem Segment.Sealed.exists_load {p : Nat × Segment} {e : Nat × Chunk}
    (h : Sealed cfg q w.disk p e) (hq : w.disk.enter cfg.path = .ok q) (hw : w.Calm) :
    ∃ w', e.2.load cfg w = .ok (contents p.2.payloads) w' := by
  obtain ⟨bytes, hb, -, hd⟩ := h.artifact
  have hplain : Path.Plain e.2.file := h.file ▸ (LogName.chunk p.1).plain
  have hload := Chunk.ends_load hq hplain (h.file ▸ h.reaches) (h.file ▸ hb) hd
    (by rw [length_contents, h.size, Segment.size])
  cases hx : e.2.load cfg w with
  | error stop w' => exact absurd hw (hload.error hx).2
  | ok content w' =>
    obtain ⟨rfl, -⟩ := hload.ok hx
    exact ⟨w', rfl⟩

theorem Segment.Sealed.divides (hq : w.disk.enter cfg.path = .ok q) (hw : w.Calm)
    (h : List.Forall₂ (Sealed cfg q w.disk) (placed 0 l.sealed) c.chunks.entries) :
    c.Divides cfg l.base w where
  tile := Nat.zero_add l.base ▸ Sealed.tile h
  counts := by
    intro chunk hchunk
    obtain ⟨e, he, rfl⟩ := List.mem_map.1 hchunk
    obtain ⟨p, -, hp⟩ := exists_of_mem_right h he
    obtain ⟨w', hload⟩ := hp.exists_load hq hw
    exact ⟨_, w', hload, hp.records ▸ counts_contents hp.writable⟩

theorem Buffer.content_eq_ok {b : Buffer} {pieces : List Bytes} (hc : cfg.cipher.Lawful)
    (h : b.Carries cfg.cipher pieces w) (hw : w.Calm) (hne : pieces ≠ []) :
    ∃ w', b.content cfg w = .ok pieces.flatten w' := by
  obtain ⟨x, -, hwritten, heq⟩ := h.content_eq cfg
  have hdecode := Op.ends_call_of_ok (e := .decodeAt b.id 0 x.toBytes) (h := .decodeAt)
    (hwritten.decodeAt_eq hc hne) w
  cases hx : b.content cfg w with
  | error stop w' => exact absurd hw (hdecode.error (heq ▸ hx)).2
  | ok content w' =>
    obtain ⟨rfl, -⟩ := hdecode.ok (heq ▸ hx)
    exact ⟨w', rfl⟩

theorem Settled.agrees (h : Settled q l c (writer, w)) :
    writer.Agrees (l.cut.state writer.buffer.capacity) w where
  start := h.carries.start_eq.symm
  salt := h.carries.salt_eq.symm
  capacity := rfl
  name := h.carries.file_eq.symm
  pos := by
    rw [h.carries.pos_eq]
    exact extent_le_of_prefix (List.take_prefix _ _)
  records := by
    rw [h.carries.records_eq]
    exact List.length_take_le' _ _
  mark := h.carries.watermark_eq ▸ h.carries.mark
  counts := by
    refine ⟨contents l.live.payloads, ?_, ?_, fun hne => ?_⟩
    · rw [length_contents, h.carries.pos_eq, Segment.size]
    · exact h.carries.records_eq ▸ counts_contents h.carries.writable
    · refine Buffer.content_eq_ok h.cipher h.carries.file h.calm fun hnil => hne ?_
      rw [← flatten_map_encode, hnil]
      rfl
  file := by
    obtain ⟨x, hx, -⟩ := h.carries.file.written
    refine ⟨writer.buffer.handle, ?_, ?_⟩
    · rw [h.carries.file_eq, Disk.find_of_reaches h.carries.home (LogName.live l.base).plain
        h.carries.reaches, show w.disk.names.get? _ = _ from h.carries.linked]
    · rw [hx]
      exact h.carries.file.size_eq hx

theorem Store.tables_of_keeps {s : Store} (hs : w.stores[id]? = some s)
    (hk : s.medium.Keeps q c w.disk) : ∃ t, w.tables id = some t ∧ t.Represents c :=
  ⟨s.tables w.disk, by rw [World.tables, hs, Option.map_some], Store.Keeps.represents hk⟩

theorem Held.legible (h : Held cfg q l c writer id w g)
    (hroom : Store.HasRoom id writer.buffer.stop w) : Store.Legible id c w := by
  intro s hs hf
  obtain ⟨hstop, -⟩ := hroom s hs hf
  have hcar := h.settled.carries
  rw [hcar.stop_eq] at hstop
  refine ⟨fun b hb => ?_, h.keptStats, ?_⟩
  · rw [hcar.described] at hb
    cases hb
    have hle : l.cut.live.size ≤ l.live.size := extent_le_of_prefix (List.take_prefix _ _)
    refine BufferState.small_of_stop ?_ h.bufferSize (length_le_extent _) hcar.reaches.short
    exact (Nat.add_le_add_left hle l.base).trans_lt hstop
  · exact hcar.listable (h.store.symm ▸ hroom) s (h.store.symm ▸ hs) hf

theorem Held.lists (h : Held cfg q l c writer id w g)
    (hroom : Store.HasRoom id writer.buffer.stop w) : Store.Lists id c w := by
  have hk : Store.Keeps q id c w := h.store ▸ h.settled.carries.index
  have hleg := h.legible hroom
  exact ⟨Store.read_eq_ok hk h.settled.calm hleg ⟨c, rfl⟩,
    Store.read_eq_ok hk h.settled.calm hleg ⟨c, rfl⟩⟩

/-- In all that can happen to a log, its index divides it up to the live segment that the index
describes, and a writer agrees with that. -/
theorem Life.copies_agree {o : Option Writer} (h : Life cfg o id w g) (hz : cfg.compressor.Lawful)
    (hc : cfg.cipher.Lawful) :
    ∃ t c described, w.tables id = some t ∧ t.Represents c ∧ c.buffer = some described ∧
      c.Divides cfg described.start w ∧
      ∀ writer, o = some writer → writer.store = id ∧ writer.Agrees described w ∧
        (Store.HasRoom id writer.buffer.stop w → Store.Lists id c w) := by
  cases o with
  | none =>
    obtain ⟨q, l, c, capacity, hleft⟩ := h.left hz hc
    obtain ⟨s, hs, -, -, hk⟩ := hleft.index
    obtain ⟨t, ht, hrep⟩ := Store.tables_of_keeps hs hk
    exact ⟨t, c, _, ht, hrep, hleft.lies.described,
      Sealed.divides (l := l) hleft.lies.home hleft.calm hleft.lies.chunks, fun _ ho => by cases ho⟩
  | some writer =>
    obtain ⟨q, l, c, hheld⟩ := h.held hz hc
    have hset := hheld.settled
    have hlies := hset.carries.lies.alike hheld.alike.symm
    obtain ⟨s, hs, -, -, hk⟩ := hset.carries.index
    obtain ⟨t, ht, hrep⟩ := Store.tables_of_keeps hs hk
    rw [hheld.store] at ht
    refine ⟨t, c, _, ht, hrep, hset.carries.described,
      Sealed.divides (l := l) hlies.home hset.calm hlies.chunks, fun _ ho => ?_⟩
    cases ho
    exact ⟨hheld.store, hset.agrees, hheld.lists⟩

/-- The second of three payloads did not fit, and the third was lost with its writer. Another one
was appended in its place, behind what the index describes. -/
theorem copies_agree_reopened :
    ∃ writer id w g t c described, Life .plain (some writer) id w g ∧
      g.records = [([1, 2], 3), ([5], 5), ([], 6)] ∧ writer.buffer.start = 3 ∧
      writer.buffer.records = 2 ∧ w.tables id = some t ∧ t.Represents c ∧
      c.Divides .plain described.start w ∧ writer.Agrees described w ∧ Store.Lists id c w := by
  have hleft := (((((Life.found World.sound_blank (World.Calm.returns rfl) (by decide)
    Founding.blank rfl).act ⟨.append [1, 2] (by decide), {}⟩).act
      ⟨.append [5] (by decide), {}⟩).act ⟨.checkpoint, {}⟩).act
        ⟨.append [9] (by decide), {}⟩).drop
  obtain ⟨writer, w, hlife, hfacts⟩ := hleft.reopen (.refl _) (by decide)
    (.of_open (by decide +kernel)) (fun writer w =>
      let s := Step.take ⟨.append [] (by decide), {}⟩ (writer, w)
      Action.appended (.append [] (by decide)) s.1 == [([], 6)] && s.2.1.buffer.start == 3 &&
        s.2.1.buffer.records == 2 && !s.2.2.stores[0]?.any (·.medium.inFile)) (by decide +kernel)
  have hlife := hlife.act ⟨.append [] (by decide), {}⟩
  simp only [Bool.and_eq_true, beq_iff_eq, Bool.not_eq_true'] at hfacts
  obtain ⟨⟨⟨happended, hstart⟩, hrecords⟩, hmemory⟩ := hfacts
  obtain ⟨t, c, described, ht, hrep, -, hdivides, hwriter⟩ := hlife.copies_agree
    Compressor.lawful_identity Cipher.lawful_identity
  obtain ⟨-, hagrees, hlists⟩ := hwriter _ rfl
  refine ⟨_, _, _, _, t, c, described, hlife, ?_, hstart, hrecords, ht, hrep, hdivides, hagrees,
    hlists (.of_memory hmemory)⟩
  simp only [Ledger.after, happended]
  decide +kernel

end RecordLog
