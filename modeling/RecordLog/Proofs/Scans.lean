import Mathlib
import RecordLog.Proofs.Lives
import RecordLog.Proofs.Snapshots

/-!
# What scans show

A scan from a position shows the records from there on, in their order and each once, and the last
of them ends where the log ends. `Shows` says so in terms of the payloads of a log and of what its
index and its writer tell about segments.
-/

namespace RecordLog

open Record Segment

/-- All that a new scan yields, and what ends it. -/
def Reader.readFrom (r : Reader) (start : Nat) (w : World) : List Record × Item :=
  match r.scan start w with
  | .error (.error e) _ => ([], .error e)
  | .error .crash _ => ([], .crash)
  | .ok scan w => ((scan.collect w).1, (scan.collect w).2.1)

/-- A record lies in a segment that the index lists, or in the live one, and says where that
starts. -/
def Writer.Places (writer : Writer) (w : World) (r : Record) : Prop :=
  (∃ chunks w', writer.reader.chunks w = .ok chunks w' ∧
      ∃ c ∈ chunks, r.segment = c.start ∧ c.start ≤ r.start ∧ r.next ≤ c.stop) ∨
    r.segment = writer.buffer.start ∧ writer.buffer.start ≤ r.start ∧
      r.next ≤ writer.buffer.stop

/-- Records are those of some payloads from a position on, and the last one ends with the log. -/
structure Writer.Shows (writer : Writer) (w : World) (payloads : List Bytes) (start : Nat)
    (records : List Record) : Prop where
  spans : records.map (fun r => (r.data, r.start, r.next)) =
    ((line 0 0 payloads).filter (start ≤ ·.start)).map fun r => (r.data, r.start, r.next)
  places : ∀ r ∈ records, writer.Places w r
  last : (records.getLast?.map Record.next).getD start = writer.buffer.stop

variable {q : Place} {l : Log} {c c' : Catalog} {id : StoreId} {writer : Writer} {w : World}
  {s : Writer × World} {start : Nat}

theorem map_line (segment segment' pos : Nat) (ps : List Bytes) :
    (line segment pos ps).map (fun r => (r.data, r.start, r.next)) =
      (line segment' pos ps).map fun r => (r.data, r.start, r.next) := by
  induction ps generalizing pos with
  | nil => rfl
  | cons p ps ih => simp [line, ih]

theorem map_records (start : Nat) (ss : List Segment) :
    (Segment.records start ss).map (fun r => (r.data, r.start, r.next)) =
      (line 0 start (ss.flatMap Segment.payloads)).map fun r => (r.data, r.start, r.next) := by
  induction ss generalizing start with
  | nil => rfl
  | cons s ss ih =>
    rw [Segment.records, List.flatMap_cons, line_append, List.map_append, List.map_append, ih,
      map_line start 0]
    rfl

theorem map_filter_start (start : Nat) {rs rs' : List Record}
    (h : rs.map (fun r => (r.data, r.start, r.next)) =
      rs'.map fun r => (r.data, r.start, r.next)) :
    (rs.filter (start ≤ ·.start)).map (fun r => (r.data, r.start, r.next)) =
      (rs'.filter (start ≤ ·.start)).map fun r => (r.data, r.start, r.next) := by
  have hfilter (xs : List Record) :
      (xs.filter (start ≤ ·.start)).map (fun r => (r.data, r.start, r.next)) =
        (xs.map fun r => (r.data, r.start, r.next)).filter (start ≤ ·.2.1) := by
    rw [List.filter_map]
    rfl
  rw [hfilter, hfilter, h]

theorem getLast?_line (segment pos : Nat) (ps : List Bytes) :
    ((line segment pos ps).getLast?.map Record.next).getD pos = pos + extent ps := by
  rcases List.eq_nil_or_concat ps with rfl | ⟨ps, p, rfl⟩
  · rfl
  · rw [List.concat_eq_append, line_append, line, line, List.getLast?_concat]
    simp [Nat.add_assoc]

theorem filter_line_boundary (ps rest : List Bytes) :
    (line 0 0 (ps ++ rest)).filter (extent ps ≤ ·.start) = line 0 (extent ps) rest := by
  rw [line_append, List.filter_append, filter_line_of_ge (by simp), List.nil_append, Nat.zero_add,
    filter_line_of_le (Nat.le_refl _)]

theorem Settled.shows (h : Settled q l c s) (hl : Store.Listable s.1.store c s.2)
    (hb : l.Boundary start) :
    s.1.Shows s.2 l.payloads start (l.records.filter (start ≤ ·.start)) where
  spans := by
    refine map_filter_start start ?_
    rw [Log.records, map_records]
    simp [Log.payloads]
  places := by
    intro r hr
    have hr := List.mem_of_mem_filter hr
    rw [Log.records, records_append, List.mem_append] at hr
    rcases hr with hr | hr
    · left
      obtain ⟨w', hx, -⟩ :=
        Reader.chunks_eq (r := s.1.reader) h.carries.index.offers h.calm hl
      rw [records_eq_flatMap, List.mem_flatMap] at hr
      obtain ⟨p, hp, hr⟩ := hr
      obtain ⟨i, hi, rfl⟩ := List.getElem_of_mem hp
      have hlen := h.carries.chunks.length_eq
      have hs := (List.forall₂_iff_get.1 h.carries.chunks).2 i hi (hlen ▸ hi)
      have hmem : c.chunks.entries[i].2 ∈ c.chunks.values :=
        List.mem_map_of_mem (List.getElem_mem (hlen ▸ hi))
      have hseg : r.segment = (placed 0 l.sealed)[i].1 := segment_of_mem_line hr
      have hbounds := bounds_of_mem_line hr
      have hstart : c.chunks.entries[i].2.start = (placed 0 l.sealed)[i].1 := hs.start
      have hstop : c.chunks.entries[i].2.stop =
          (placed 0 l.sealed)[i].1 + extent (placed 0 l.sealed)[i].2.payloads := hs.stop
      exact ⟨_, w', hx, _, hmem, by omega, by omega, by omega⟩
    · right
      simp only [Segment.records, List.append_nil, Nat.zero_add] at hr
      have hseg := segment_of_mem_line hr
      have hbounds := bounds_of_mem_line hr
      have hstart := h.carries.start_eq
      have hstop := h.carries.stop_eq
      change r.segment = l.base at hseg
      have hlstop : l.stop = l.base + extent l.live.payloads := rfl
      have hbase : span l.sealed = l.base := rfl
      exact ⟨by omega, by omega, by omega⟩
  last := by
    obtain ⟨ps, ⟨rest, hrest⟩, rfl⟩ := hb
    have hmap : l.records.map (fun r => (r.data, r.start, r.next)) =
        (line 0 0 l.payloads).map fun r => (r.data, r.start, r.next) := by
      rw [Log.records, map_records]
      simp [Log.payloads]
    have hspans := map_filter_start (extent ps) hmap
    rw [← hrest, filter_line_boundary] at hspans
    have hlast := congrArg (fun xs => (xs.getLast?.map (·.2.2)).getD (extent ps)) hspans
    simp only [List.getLast?_map, Option.map_map] at hlast
    rw [h.carries.stop_eq, Log.stop_eq, ← hrest, extent_append, ← getLast?_line 0]
    exact hlast

theorem Store.Listable.of_keeps (h : Listable id c w) (hk : Keeps q id c w)
    (hk' : Keeps q id c' w) : Listable id c' w := by
  intro st hst hfile chunk' hchunk'
  have hsmall := h st hst hfile
  obtain ⟨st₁, hst₁, -, -, hm⟩ := hk
  obtain ⟨st₂, hst₂, -, -, hm'⟩ := hk'
  rw [hst] at hst₁ hst₂
  cases hst₁
  cases hst₂
  cases hmed : st.medium with
  | memory c₀ => simp [hmed, Medium.inFile] at hfile
  | file f =>
    rw [hmed] at hm hm'
    obtain ⟨-, t, damage, ht, -, he⟩ := hm
    obtain ⟨-, t', damage', ht', -, he'⟩ := hm'
    rw [ht] at ht'
    cases ht'
    have hvalues := he.values_chunks.symm.trans he'.values_chunks
    have hmem : Stored.ofChunk chunk' ∈ c.chunks.values.map Stored.ofChunk :=
      hvalues ▸ List.mem_map_of_mem hchunk'
    obtain ⟨chunk, hchunk, heq⟩ := List.mem_map.1 hmem
    have hdec : Stored.decode Stored.chunk (Stored.ofChunk chunk') = .ok chunk := by
      rw [← heq]
      exact (Stored.form_chunk chunk).decode_eq (hsmall chunk hchunk)
    rw [← (Stored.form_chunk chunk').eq_of_decode hdec]
    exact hsmall chunk hchunk

/-- A scan alone is one during which the writer takes no steps. -/
theorem Reader.readFrom_eq_readAmid (r : Reader) (start : Nat) (writer : Writer) (w : World) :
    r.readFrom start w = ((r.readAmid start [] (fun _ => {}) (writer, w)).records,
      (r.readAmid start [] (fun _ => {}) (writer, w)).last) := by
  rw [readAmid, scanAmid_idle, Writing.onWorld, readFrom, scan, plan]
  simp only [bind, EStateM.bind, watermark, pure, EStateM.pure]
  cases r.chunks w with
  | error stop w' => cases stop <;> rfl
  | ok cs w' =>
    dsimp only
    rw [collectAmid_idle]
    rfl

theorem Reader.readFrom_of_readAmid {r : Reader} {records : List Record} {last : Item}
    (hr : (r.readAmid start [] (fun _ => {}) s).records = records)
    (hl : (r.readAmid start [] (fun _ => {}) s).last = last) :
    r.readFrom start s.2 = (records, last) := by
  rw [readFrom_eq_readAmid r start s.1 s.2, hr, hl]

theorem Reader.readFrom_eq {r : Reader} (hk : Store.Keeps q r.store c w) (writer : Writer)
    (start : Nat) :
    ∃ w', World.Idle w w' ∧
      (r.readAmid start [] (fun _ => {}) (writer, w)).after = (writer, w') ∧
      r.readFrom start w = ((r.readAmid start [] (fun _ => {}) (writer, w)).records,
        (r.readAmid start [] (fun _ => {}) (writer, w)).last) := by
  have hlist := ends_chunks hk.offers
  rw [readFrom_eq_readAmid r start writer]
  rw [readAmid, scanAmid_idle, Writing.onWorld, scan, plan]
  simp only [bind, EStateM.bind, watermark, pure, EStateM.pure]
  cases hx : r.chunks w with
  | error stop w' =>
    have hi := (hlist.error hx).1
    cases stop <;> exact ⟨w', hi, rfl, trivial⟩
  | ok cs w' =>
    have hi := (hlist.ok hx).2
    dsimp only
    rw [collectAmid_idle]
    exact ⟨_, hi.trans (Scan.idle_collect (hk.idle hi).offers), rfl, trivial⟩

theorem Settled.readFrom_of_admits (h : Settled q l c s) (hl : Store.Listable s.1.store c s.2)
    (hb : l.Admits start) :
    s.1.reader.readFrom start s.2 = (l.records.filter (start ≤ ·.start), .done) := by
  obtain ⟨writer, w⟩ := s
  have hk := h.carries.index
  obtain ⟨w', hi, hafter, heq⟩ := Reader.readFrom_eq (r := writer.reader) hk writer start
  obtain ⟨l', c', hf, hshown⟩ := h.readAmid_of_admits hb [] fun _ => {}
  rw [hafter] at hf hshown
  have hl' : Store.Listable writer.store c w' := hl.idle hi
  obtain ⟨hrecords, hlast, -⟩ := hshown (hl'.of_keeps (hk.idle hi) hf.settled.carries.index)
  rw [heq, hrecords, hlast]

theorem Settled.readFrom (h : Settled q l c s) (hl : Store.Listable s.1.store c s.2)
    (hb : l.Boundary start) :
    s.1.reader.readFrom start s.2 = (l.records.filter (start ≤ ·.start), .done) :=
  h.readFrom_of_admits hl hb.admits

end RecordLog
