import Mathlib
import RecordLog.Proofs.Openings
import RecordLog.Proofs.Resuming
import RecordLog.Proofs.Turns

/-!
# Reading after the writer was replaced

A scan that was planned when everything in the log was durable goes on however often the writer goes
and another one comes: what was durable is never cut off, so each planned segment still shows the
records it had. Only the chunk of a segment that was sealed since may not be found, as the scan looks
it up in an index that may have been closed.
-/

namespace RecordLog

open Record Segment

variable {cfg : Config} {q : Place} {l l' : Log} {c c' : Catalog} {r : Reader} {id : StoreId}
  {w w' : World} {start : Nat} {capacity : Nat} {n n' : Moment}

/-- What a reader finds of a log and of what its index listed, however much later. -/
structure Reader.Finds (r : Reader) (q : Place) (l : Log) (c : Catalog) (l' : Log) (c' : Catalog)
    (w : World) : Prop extends r.Meets q l' c' w where
  grows : l.Grows l'
  length : (placed 0 l.sealed).length = c.chunks.entries.length
  writable : ∀ x ∈ l.live.payloads, Writable x
  entries : c.chunks.entries <+: c'.chunks.entries

/-- A planned segment with the records from a position on that it had when it was planned. -/
inductive Log.Plans (l : Log) (c : Catalog) (start : Nat) : Source → List Record → Prop where
  | chunk {z : (Nat × Segment) × (Nat × Chunk)}
      (hz : z ∈ (placed 0 l.sealed).zip c.chunks.entries) (hpre : l.part z.1 <+: z.1.2.payloads)
      (hstop : min l.stop z.2.2.stop = z.1.1 + extent (l.part z.1)) :
      Plans l c start (.chunk z.2.2) ((line z.1.1 z.1.1 (l.part z.1)).filter (start ≤ ·.start))
  | live (hstart : start < l.stop) (hsize : 0 < l.live.size) (ha : l.Admits start) :
      Plans l c start (.live l.watermark)
        ((line l.base l.base l.live.payloads).filter (start ≤ ·.start))

namespace Reader.Finds

theorem idle (h : r.Finds q l c l' c' w) (hi : World.Idle w w') : r.Finds q l c l' c' w' :=
  { h with toMeets := h.toMeets.idle hi }

theorem opens (h : r.Finds q l c l' c' w) {source : Source} {rs : List Record}
    (hs : l.Plans c start source rs) : r.Opens start l.stop source rs w := by
  obtain ⟨capacity, hlies⟩ := h.lies
  cases hs with
  | chunk hz hpre hstop =>
    have hz := h.grows.mem_zip h.length h.entries hz
    exact (h.openChunk start hz hpre hstop).mono (fun _ _ h => h) fun _ _ hF => hF.elim
  | live hstart hsize ha =>
    obtain ⟨hreach, hfile⟩ := hlies.live_or_sealed h.grows
    obtain ⟨skip, ps, hsplit, hne, hmin, hrest⟩ := ha.split hstart hsize
    rcases hfile with ⟨bytes, more, hbytes, hw⟩ | ⟨hnone, z, hz, hbase, hpre⟩
    · have hopen := Reader.ends_openLive (m := l.watermark) hlies.home hreach h.cipher hbytes
        (hsplit ▸ hw) (by rw [← hsplit]; rfl) hne hmin
      refine Ends.catch_stop (F := fun _ _ => False) (hopen.mono ?_ ?_) fun _ _ hF => hF.elim
      · rintro cur w' ⟨hcur, hi⟩
        refine ⟨?_, hi⟩
        rw [hcur.drain (fun x hx => h.writable x (hsplit ▸ List.mem_append_right _ hx)), ← hrest]
        rfl
      · rintro _ _ ⟨-, hnot⟩
        exact hnot h.calm
    · have hmin : min l.stop z.2.2.stop = z.1.1 + extent l.live.payloads := by
        have hle := extent_le_of_prefix hpre
        have hstop : l.stop = l.base + extent l.live.payloads := rfl
        rw [(List.forall₂_zip hlies.chunks hz).stop, Segment.size]
        omega
      refine h.opens_of_missing hz hbase (fun w₁ hi => ?_) hreach hnone
      exact hbase ▸ (h.idle hi).openChunk start hz hpre hmin

end Reader.Finds

theorem Settled.exists_plans {s : Writer × World} (h : Settled q l c s) (ha : l.Admits start) :
    ∃ parts, List.Forall₂ (l.Plans c start)
        (Plan.build l.watermark c.chunks.values start).sources parts ∧
      parts.flatten = l.records.filter (start ≤ ·.start) := by
  have hchunks := h.carries.chunks
  have hsize := Follows.size_pos h
  have hvalues := map_snd_zip hchunks
  have hwanted : ∀ z ∈ (placed 0 l.sealed).zip c.chunks.entries,
      Plan.wants start l.stop z.2.2 = true →
        l.Plans c start (.chunk z.2.2) ((line z.1.1 z.1.1 (l.part z.1)).filter (start ≤ ·.start)) := by
    intro z hz hw
    have hwant : start < z.2.2.stop ∧ z.2.2.start < l.stop := by simpa [Plan.wants] using hw
    obtain ⟨hpre, hmin⟩ := Log.part_of_wanted (List.forall₂_zip hchunks hz) (h.refl.placement hz)
      hwant.2
    exact .chunk hz hpre hmin
  have hunwanted : ∀ z ∈ (placed 0 l.sealed).zip c.chunks.entries,
      ¬ Plan.wants start l.stop z.2.2 = true →
        (line z.1.1 z.1.1 (l.part z.1)).filter (start ≤ ·.start) = [] := by
    intro z hz hw
    exact Log.part_of_unwanted (List.forall₂_zip hchunks hz) (h.refl.placement hz)
      (by simpa [Plan.wants] using hw)
  obtain ⟨parts, hparts, hflat⟩ := Plan.exists_parts _ hwanted hunwanted
  have hsources : (Plan.build l.watermark (c.chunks.entries.map Prod.snd) start).sources =
      ((c.chunks.entries.map Prod.snd).filter (Plan.wants start l.stop)).map .chunk ++
        if start < l.stop ∧ 0 < l.live.size then [.live l.watermark] else [] :=
    Plan.sources_of_live rfl hchunks
  rw [hvalues] at hsources
  change ∃ parts, List.Forall₂ _ (Plan.build l.watermark (c.chunks.entries.map Prod.snd)
    start).sources parts ∧ _
  have hplaced : ((placed 0 l.sealed).flatMap fun p => line p.1 p.1 (l.part p)).filter
      (start ≤ ·.start) = parts.flatten := by
    rw [hflat, List.filter_flatMap, ← flatMap_zip hchunks]
  rw [hvalues, hsources, Log.records_of_live rfl hsize, List.filter_append, hplaced]
  by_cases hlive : start < l.stop ∧ 0 < l.live.size
  · rw [if_pos hlive]
    refine ⟨parts ++ [(line l.base l.base l.live.payloads).filter (start ≤ ·.start)], ?_, ?_⟩
    · exact List.rel_append hparts (.cons (.live hlive.1 hlive.2 ha) .nil)
    · rw [List.flatten_append, List.flatten_singleton]
  · rw [if_neg hlive]
    have hnone : (line l.base l.base l.live.payloads).filter (start ≤ ·.start) = [] := by
      by_cases hnil : l.live.payloads = []
      · rw [hnil]
        rfl
      · refine filter_line_of_ge (Nat.le_of_not_lt fun hlt => hlive ⟨hlt, extent_pos hnil⟩)
    rw [hnone, List.append_nil, List.append_nil]
    exact ⟨parts, hparts, rfl⟩

theorem Moment.Holds.finds {writer : Writer} {o : Option Writer} {g : Ledger}
    (h : Moment.Holds cfg q l' c' n) (hs : Settled q l c (writer, w)) (ha : cfg.Alike writer.config)
    (hcut : l.cut = l) (ho : Moment.Onward l c ⟨o, writer.store, w, g⟩ l' c' n)
    (hroom : Store.HasRoom writer.store n.ledger.durable n.world) :
    writer.reader.Finds q l c l' c' n.world where
  calm := h.calm
  cipher := hs.cipher
  lies := by
    obtain ⟨capacity, hlies⟩ := h.lies
    exact ⟨capacity, hlies.alike ha⟩
  grows := hcut ▸ ho.grows.trans (.ofCut l')
  length := hs.carries.chunks.length_eq
  writable := hs.carries.writable
  entries := ho.entries
  index := by
    obtain ⟨capacity, hlies⟩ := h.lies
    have hbase : l'.base ≤ n.ledger.durable := h.durable_eq ▸ Nat.le_add_right _ _
    rcases ho.index with heq | hshut
    · have heq : n.index = writer.store := heq
      exact (heq ▸ h.index).imp (fun hshut => hshut) fun hk => ⟨hk, hlies.listable hbase hroom⟩
    · exact .inl hshut

/-- The calls of a scan and what happens to the log between them. Each call finds that the index, if
it lives in a file, has room for what is durable. -/
inductive Scan.Course (cfg : Config) (scan : Scan) (n : Moment) :
    Moment → Scan → List Item → Prop where
  | planned : Course cfg scan n n scan []
  | turn {n' n'' : Moment} {s : Scan} {items : List Item} (h : Course cfg scan n n' s items)
      (ht : Turn cfg n' n'') : Course cfg scan n n'' s items
  | next {n' : Moment} {s : Scan} {items : List Item} (h : Course cfg scan n n' s items)
      (hroom : Store.HasRoom s.reader.store n'.ledger.durable n'.world) :
      Course cfg scan n { n' with world := (s.next n'.world).2.2 } (s.next n'.world).2.1
        (items ++ [(s.next n'.world).1])

/-- What the calls of a scan yield: records one after the other, and once there are no more the end,
again and again; or at some point one error because the index was closed, and then the end. -/
inductive Scan.Yields (rs : List Record) : List Item → Prop where
  | amid {shown : List Record} (h : shown <+: rs) : Yields rs (shown.map .record)
  | whole (count : Nat) : Yields rs (rs.map .record ++ List.replicate count .done)
  | closed {shown : List Record} (h : shown <+: rs) (count : Nat) :
      Yields rs (shown.map .record ++ .error .closed :: List.replicate count .done)

namespace Scan

variable {shows : Source → List Record → Prop} {rs : List Record} {items : List Item} {s s' : Scan}
  {out : Item × Scan × World}

/-- Where a scan stands that yielded some items. -/
inductive Stands (shows : Source → List Record → Prop) (rs : List Record) (s : Scan) (w : World) :
    List Item → Prop where
  | amid {shown rest : List Record} (h : shown ++ rest = rs) (ha : Awaits shows s rest) :
      Stands shows rs s w (shown.map .record)
  | whole (count : Nat) (ho : s.Over) :
      Stands shows rs s w (rs.map .record ++ List.replicate count .done)
  | closed {shown : List Record} (h : shown <+: rs) (count : Nat) (hf : s.failed = true)
      (hc : Store.Shut s.reader.store w) :
      Stands shows rs s w (shown.map .record ++ .error .closed :: List.replicate count .done)

namespace Stands

theorem yields (h : Stands shows rs s w items) : Yields rs items := by
  cases h with
  | amid h _ => exact .amid ⟨_, h⟩
  | whole count _ => exact .whole count
  | closed h count _ _ => exact .closed h count

theorem shut_of_mem (h : Stands shows rs s w items) {e : Error} (he : .error e ∈ items) :
    Store.Shut s.reader.store w := by
  cases h with
  | closed _ _ _ hc => exact hc
  | amid _ _ => simp at he
  | whole _ _ => simp at he

theorem mono (h : Stands shows rs s w items)
    (hw : ∀ id, Store.Shut id w → Store.Shut id w') : Stands shows rs s w' items := by
  cases h with
  | amid h ha => exact .amid h ha
  | whole count ho => exact .whole count ho
  | closed h count hf hc => exact .closed h count hf (hw _ hc)

theorem next (h : Stands shows rs s w items)
    (hopen : ∀ source rs w', World.Idle w w' → shows source rs →
      s.reader.Opens s.plan.start s.plan.stop source rs w') :
    Stands shows rs (s.next w).2.1 (s.next w).2.2 (items ++ [(s.next w).1]) ∧
      s.Same (s.next w).2.1 ∧ World.Idle w (s.next w).2.2 := by
  have hshut {s' : Scan} {w' : World} (hs : s.Same s') (hi : World.Idle w w')
      (hc : Store.Shut s.reader.store w) : Store.Shut s'.reader.store w' := by
    rw [hs.reader]
    exact (Store.shut_idle hi).2 hc
  cases h with
  | @amid shown rest heq ha =>
    have hcomes := next_comes hopen ha
    generalize s.next w = out at hcomes ⊢
    cases hcomes with
    | @record r rest s' w' ha' hs hi =>
      refine ⟨?_, hs, hi⟩
      have hitems : shown.map Item.record ++ [.record r] = (shown ++ [r]).map .record := by simp
      rw [hitems]
      exact .amid (by simpa using heq) ha'
    | done ho hs hi =>
      refine ⟨?_, hs, hi⟩
      rw [List.append_nil] at heq
      rw [heq]
      exact .whole 1 ho
    | closed hf hc hs hi => exact ⟨.closed ⟨_, heq⟩ 0 hf (hshut hs hi hc), hs, hi⟩
  | whole count ho =>
    rw [next_of_over ho, List.append_assoc, ← List.replicate_succ']
    exact ⟨.whole (count + 1) ho, ⟨rfl, rfl, rfl⟩, .refl w⟩
  | @closed shown hpre count hf hc =>
    rw [next_of_failed hf, List.append_assoc, List.cons_append, ← List.replicate_succ']
    exact ⟨.closed hpre (count + 1) hf hc, ⟨rfl, rfl, rfl⟩, .refl w⟩

end Stands

end Scan

theorem Log.cut_eq_self (h : l.durable = l.stop) : l.cut = l := by
  have hextent : extent (l.live.payloads.take l.kept) = extent l.live.payloads :=
    Nat.add_left_cancel (n := l.base) h
  have hsplit := extent_append (l.live.payloads.take l.kept) (l.live.payloads.drop l.kept)
  rw [List.take_append_drop, hextent, Nat.left_eq_add, extent_eq_zero] at hsplit
  have htake : l.live.payloads.take l.kept = l.live.payloads := by
    have := List.take_append_drop l.kept l.live.payloads
    rwa [hsplit, List.append_nil] at this
  rw [Log.cut, htake]

theorem Settled.scan_eq {writer : Writer} (h : Settled q l c (writer, w))
    (hl : Store.Listable writer.store c w) (start : Nat) :
    ∃ w', writer.reader.scan start w =
        .ok { reader := writer.reader, plan := Plan.build l.watermark c.chunks.values start } w' ∧
      World.Idle w w' := by
  have hmark : writer.reader.watermark w = .ok l.watermark w :=
    Reader.watermark_eq h.carries.mark
  obtain ⟨w', hx, hi⟩ :=
    Reader.chunks_eq (r := writer.reader) h.carries.index.offers h.calm hl
  exact ⟨w', Reader.scan_eq hmark hx start, hi⟩

section course

variable {writer : Writer} {g : Ledger} {scan s : Scan} {rs : List Record} {items : List Item}

theorem Scan.Course.stands (hz : cfg.compressor.Lawful) (hc : cfg.cipher.Lawful)
    (h : Held cfg q l c writer id w g) (hcut : l.cut = l)
    (hreader : scan.reader = writer.reader) (hstart : scan.plan.start = start)
    (hstop : scan.plan.stop = l.stop)
    (ha : scan.Awaits (l.Plans c start) rs)
    (hcourse : scan.Course cfg ⟨some writer, id, w, g⟩ n s items) :
    ∃ l' c', Moment.Holds cfg q l' c' n ∧ Moment.Onward l c ⟨some writer, id, w, g⟩ l' c' n ∧
      scan.Same s ∧ Scan.Stands (l.Plans c start) rs s n.world items := by
  induction hcourse with
  | planned => exact ⟨l, c, .held h, .refl _ _ _, ⟨rfl, rfl, rfl⟩,
      Scan.Stands.amid (List.nil_append rs) ha⟩
  | turn _ ht ih =>
    obtain ⟨l₁, c₁, hholds, ho, hsame, hstands⟩ := ih
    obtain ⟨l₂, c₂, hholds', ho'⟩ := ht.holds hz hc hholds
    exact ⟨l₂, c₂, hholds', ho.trans ho', hsame, hstands.mono ho'.shut⟩
  | @next n' s items _ hroom ih =>
    obtain ⟨l₁, c₁, hholds, ho, hsame, hstands⟩ := ih
    have hreader := hsame.reader.trans hreader
    have hstart := hsame.start.trans hstart
    have hstop := hsame.stop.trans hstop
    have hfinds : s.reader.Finds q l c l₁ c₁ n'.world := by
      rw [hreader] at hroom ⊢
      exact hholds.finds h.settled h.alike hcut (h.store ▸ ho) hroom
    obtain ⟨hstands', hsame', hi⟩ := hstands.next fun source rs' w' hi hplans => by
      rw [hstart, hstop]
      exact (hfinds.idle hi).opens hplans
    exact ⟨l₁, c₁, hholds.idle hi, ho.idle hi, ⟨hsame'.reader.trans hsame.reader,
      hsame'.start.trans hsame.start, hsame'.stop.trans hsame.stop⟩, hstands'⟩

/-- A scan by a reader of the live writer that is planned when all of the log is durable yields the
records the log has then, whatever becomes of that writer. The one error there can be is that the
index was closed. Readers that were kept from an earlier writer are the subject of
`RecordLog.Proofs.KeptReaders`. -/
theorem Life.yields_of_durable (h : Life cfg (some writer) id w g) (hz : cfg.compressor.Lawful)
    (hc : cfg.cipher.Lawful) (hdurable : g.durable = writer.buffer.stop)
    (hroom : Store.HasRoom id writer.buffer.stop w) :
    ∃ all, writer.reader.readFrom 0 w = (all, .done) ∧
      writer.Shows w (g.records.map Prod.fst) 0 all ∧
      ∀ start, (∀ r ∈ all, r.segment = writer.buffer.start → r.start < start → r.next ≤ start) →
        ∃ scan w', writer.reader.scan start w = .ok scan w' ∧
          ∀ n s items, scan.Course cfg ⟨some writer, id, w', g⟩ n s items →
            Scan.Yields (all.filter (start ≤ ·.start)) items ∧
              ∀ e, .error e ∈ items → Store.Shut id n.world := by
  obtain ⟨q, l, c, hheld⟩ := h.held hz hc
  have hset := hheld.settled
  have hlist := hset.carries.listable (hheld.store ▸ hroom)
  have hzero : l.Boundary 0 := Log.boundary_of_told (.inl rfl)
  have hall := filter_start_zero l.records
  have hcut : l.cut = l := by
    refine Log.cut_eq_self ?_
    rw [← hheld.tells.durable, hdurable]
    exact hset.carries.stop_eq
  refine ⟨l.records, hall ▸ hset.readFrom hlist hzero, ?_, fun start hstart => ?_⟩
  · rw [hheld.tells.records, map_told]
    exact hall ▸ hset.shows hlist hzero
  · rw [hset.carries.start_eq] at hstart
    obtain ⟨w', hscan, hi⟩ := hset.scan_eq hlist start
    obtain ⟨parts, hparts, hflat⟩ := hset.exists_plans (Log.admits_of_records hstart)
    refine ⟨_, w', hscan, fun n s items hcourse => ?_⟩
    obtain ⟨l', c', -, -, hsame, hstands⟩ := hcourse.stands hz hc (hheld.idle hi) hcut rfl rfl rfl
      ⟨rfl, [], parts, hflat.symm, rfl, hparts⟩
    refine ⟨hstands.yields, fun e he => ?_⟩
    have hshut := hstands.shut_of_mem he
    rw [hsame.reader] at hshut
    exact hheld.store ▸ hshut

end course

/-- Between the first and the second record of a scan the log had another writer, who sealed the
segment that was live and removed its file. -/
theorem yields_over_replacement :
    ∃ writer id w g scan w' n s, Life .plain (some writer) id w g ∧
      writer.reader.scan 0 w = .ok scan w' ∧
      scan.Course .plain ⟨some writer, id, w', g⟩ n s
        [.record ⟨[1, 2], 0, 0, 3⟩, .record ⟨[5], 3, 3, 5⟩, .done] ∧
      Scan.Yields [⟨[1, 2], 0, 0, 3⟩, ⟨[5], 3, 3, 5⟩]
        [.record ⟨[1, 2], 0, 0, 3⟩, .record ⟨[5], 3, 3, 5⟩, .done] := by
  have hlife := (((Life.found World.sound_blank (World.Calm.returns rfl) (by decide) Founding.blank
    rfl).act ⟨.append [1, 2] (by decide), {}⟩).act ⟨.append [5] (by decide), {}⟩).act
      ⟨.checkpoint, {}⟩
  obtain ⟨writer, w, g, hlife, hdurable, hmemory, hrecords, hlast, hfacts⟩ :
      ∃ writer w g, Life .plain (some writer) 0 w g ∧ g.durable = writer.buffer.stop ∧
        w.stores[0]?.any (·.medium.inFile) = false ∧
        (writer.reader.readAmid 0 [] (fun _ => {}) (writer, w)).records =
          [⟨[1, 2], 0, 0, 3⟩, ⟨[5], 3, 3, 5⟩] ∧
        (writer.reader.readAmid 0 [] (fun _ => {}) (writer, w)).last = .done ∧
        (writer.reader.scan 0).passes (fun scan w =>
          !w.stores[scan.reader.store]?.any (·.medium.inFile) &&
          match scan.next w with
          | (item, scan, w) => item == .record ⟨[1, 2], 0, 0, 3⟩ && w.stores[0]?.any (!·.closed) &&
            (Writer.resume .plain 0).passes (fun writer w =>
              let w := (Step.take ⟨.append [6, 7, 8] (by decide), {}⟩ (writer, w.under 0 {})).2.2
              !w.stores[scan.reader.store]?.any (·.medium.inFile) &&
              match scan.next w with
              | (item, scan, w) => item == .record ⟨[5], 3, 3, 5⟩ &&
                !w.stores[scan.reader.store]?.any (·.medium.inFile) && (scan.next w).1 == .done)
              (w.under 0 {})) w = true :=
    ⟨_, _, _, hlife, by decide +kernel, by decide +kernel, by decide +kernel, by decide +kernel,
      by decide +kernel⟩
  obtain ⟨all, hall, -, hscans⟩ := hlife.yields_of_durable Compressor.lawful_identity
    Cipher.lawful_identity hdurable (.of_memory hmemory)
  obtain rfl : _ = all :=
    congrArg Prod.fst ((Reader.readFrom_of_readAmid hrecords hlast).symm.trans hall)
  obtain ⟨scan, w₀, hscan, hyields⟩ := hscans 0 fun _ _ _ h => absurd h (Nat.not_lt_zero _)
  have hfacts := Op.check_of_passes hscan _ hfacts
  rw [Bool.and_eq_true, Bool.not_eq_true'] at hfacts
  obtain ⟨hmemory₀, hfacts⟩ := hfacts
  have hplanned : scan.Course .plain ⟨some writer, 0, w₀, g⟩ ⟨some writer, 0, w₀, g⟩ scan [] :=
    .planned
  have hfirst := hplanned.next (.of_memory hmemory₀)
  rcases hnext : scan.next w₀ with ⟨item₁, scan₁, w₁⟩
  rw [hnext] at hfacts
  dsimp only at hfirst
  rw [hnext] at hfirst
  simp only [Bool.and_eq_true, beq_iff_eq] at hfacts
  obtain ⟨⟨rfl, hopen⟩, hfacts⟩ := hfacts
  obtain ⟨writer₁, w₂, hop, hfacts⟩ := Op.exists_of_passes hfacts
  have hreopened := (hfirst.turn (.drop _ _ _ _)).turn
    (.enter _ (.refl _) (by decide) (.of_open hopen) {} hop)
  have hacted := hreopened.turn (.act _ _ _ _ ⟨.append [6, 7, 8] (by decide), {}⟩)
  generalize Step.take _ (writer₁, w₂.under 0 {}) = out at hacted hfacts
  rw [Bool.and_eq_true, Bool.not_eq_true'] at hfacts
  obtain ⟨hmemory₁, hfacts⟩ := hfacts
  have hsecond := hacted.next (.of_memory hmemory₁)
  rcases hnext₁ : scan₁.next out.2.2 with ⟨item₂, scan₂, w₃⟩
  dsimp only at hsecond
  rw [hnext₁] at hsecond hfacts
  simp only [Bool.and_eq_true, beq_iff_eq, Bool.not_eq_true'] at hfacts
  obtain ⟨⟨rfl, hmemory₂⟩, hend⟩ := hfacts
  have hover := hsecond.next (.of_memory hmemory₂)
  dsimp only at hover
  rw [hend] at hover
  exact ⟨writer, 0, w, g, scan, w₀, _, _, hlife, hscan, hover, (hyields _ _ _ hover).1⟩

end RecordLog
