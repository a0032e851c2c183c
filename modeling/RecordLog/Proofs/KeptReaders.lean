import Mathlib
import RecordLog.Proofs.OldWatermarks
import RecordLog.Proofs.Recovery

/-!
# Readers that outlive their writer

A reader goes on with the watermark of its writer after that went and others took its place. What it
shows are the first records of the log, in their order and each once, up to its watermark. But when
two or more segments were sealed where its writer had but one, the records of the first of them come
a second time, after the others.
-/

namespace RecordLog

open Record Segment

variable {cfg : Config} {q : Place} {l : Log} {c : Catalog} {m : Watermark} {r : Reader}
  {id : StoreId} {w : World} {g : Ledger} {writer : Writer} {n : Moment} {rs : List Record}

theorem Scan.collect_of_awaits {shows : Source → List Record → Prop} {s : Scan}
    (hopen : ∀ source rs w', World.Idle w w' → shows source rs →
      s.reader.Opens s.plan.start s.plan.stop source rs w')
    (hshut : ¬ Store.Shut s.reader.store w) (h : s.Awaits shows rs) :
    (s.collect w).1 = rs ∧ (s.collect w).2.1 = .done := by
  induction rs generalizing s w with
  | nil =>
    have hcomes := next_comes hopen h
    rw [collect_eq]
    generalize s.next w = out at hcomes ⊢
    cases hcomes with
    | done ho hs hi => exact ⟨rfl, rfl⟩
    | closed hf hc hs hi => exact absurd hc hshut
  | cons r rs ih =>
    have hcomes := next_comes hopen h
    rw [collect_eq]
    generalize s.next w = out at hcomes ⊢
    cases hcomes with
    | @record _ _ s' w' ha hs hi =>
      have hopen' : ∀ source rs w'', World.Idle w' w'' → shows source rs →
          s'.reader.Opens s'.plan.start s'.plan.stop source rs w'' := by
        intro source rs w'' hi' hshows
        rw [hs.reader, hs.start, hs.stop]
        exact hopen source rs w'' (hi.trans hi') hshows
      have hshut' : ¬ Store.Shut s'.reader.store w' := by
        rw [hs.reader, Store.shut_idle hi]
        exact hshut
      obtain ⟨hrecords, hlast⟩ := ih hopen' hshut' ha
      exact ⟨congrArg (List.cons r) hrecords, hlast⟩
    | closed hf hc hs hi => exact absurd hc hshut

namespace Reader.Meets

theorem opens (h : r.Meets q l c w) (hseq : r.config.cipher.Sequential)
    (hlegible : m.Legible r.config.cipher) {source : Source} (hb : l.Bears c m source rs) :
    r.Opens 0 m.stop source rs w := by
  obtain ⟨capacity, hlies⟩ := h.lies
  cases hb with
  | chunk hz hle =>
    have hopen := h.openChunk_upTo 0 hz hle
    rw [filter_start_zero] at hopen
    exact hopen.mono (fun _ _ h => h) fun _ _ hF => hF.elim
  | @live ss rest s heq hstart hsalt hpos =>
    obtain ⟨hwritable, hreach, hfile⟩ := hlies.segment heq
    rw [← hstart] at hreach hfile
    rcases hfile with ⟨bytes, hbytes, hw⟩ | ⟨hnone, e, hz⟩
    · obtain ⟨x, z, hdecode⟩ := hlegible hpos
      have hw : Written r.config.cipher m.id 0 (s.payloads.map encode) bytes := by
        rw [← hsalt] at hw
        exact hw
      have hopen := Reader.ends_openLive_upTo hlies.home hreach h.cipher hseq hbytes hw hwritable
        hdecode (Nat.zero_le m.start)
      rw [filter_start_zero] at hopen
      refine Ends.catch_stop (F := fun _ _ => False) (hopen.mono (fun _ _ h => h) ?_)
        fun _ _ hF => hF.elim
      rintro _ _ ⟨-, hnot⟩
      exact hnot h.calm
    · refine h.opens_of_missing hz rfl (fun w₁ hi => ?_) hreach hnone
      have hopen := (h.idle hi).openChunk_upTo 0 hz (Nat.le_add_right m.start m.pos)
      rw [filter_start_zero] at hopen
      exact hopen

theorem readFrom_of_had (h : r.Meets q l c w) (hopen : ¬ Store.Shut r.store w)
    (hmark : r.watermark w = .ok m w) (had : l.Had m) (hseq : r.config.cipher.Sequential)
    (hlegible : m.Legible r.config.cipher) :
    ∃ ss once w', ss <+: l.sealed ++ [l.live] ∧
      once = (Segment.records 0 ss).filter (·.next ≤ m.stop) ∧
      r.chunks w = .ok c.chunks.values w' ∧
      r.readFrom 0 w = (once ++ if 2 ≤ c.chunks.values.countP m.covers then
        once.filter (·.segment = m.start) else [], .done) := by
  obtain ⟨capacity, hlies⟩ := h.lies
  obtain ⟨ss, parts, once, hss, honce, hparts, hflat⟩ := had.exists_parts hlies.chunks
  obtain ⟨hkeeps, hlist⟩ := h.index.resolve_left hopen
  obtain ⟨w', hx, hi⟩ := Reader.chunks_eq hkeeps.offers h.calm hlist
  refine ⟨ss, once, w', hss, honce, hx, ?_⟩
  have hshut : ¬ Store.Shut r.store w' := by
    rw [Store.shut_idle hi]
    exact hopen
  obtain ⟨hrecords, hlast⟩ := Scan.collect_of_awaits (w := w')
    (s := { reader := r, plan := Plan.build m c.chunks.values 0 })
    (fun source rs w'' hi' hb => ((h.idle hi).idle hi').opens hseq hlegible hb) hshut
    ⟨rfl, [], parts, rfl, rfl, hparts⟩
  rw [Reader.readFrom, Reader.scan_eq hmark hx]
  dsimp only
  rw [hrecords, hlast, List.nil_append, hflat]

end Reader.Meets

/-- What a reader shows of a log that had other writers since its own: the first records of the log
in their order, none twice and none that ends above the watermark; and if two chunks start in what
was live, the records of the first of these once more. -/
theorem Life.readFrom_kept (h : Life cfg (some writer) id w g) (hz : cfg.compressor.Lawful)
    (hc : cfg.cipher.Lawful) (hseq : cfg.cipher.Sequential)
    (hturns : Relation.ReflTransGen (Turn cfg) ⟨some writer, id, w, g⟩ n)
    (hopen : ¬ Store.Shut id n.world) (hroom : Store.HasRoom id n.ledger.durable n.world) :
    ∃ m chunks w' once, writer.reader.watermark n.world = .ok m n.world ∧
      writer.reader.chunks n.world = .ok chunks w' ∧
      writer.reader.readFrom 0 n.world = (once ++ if 2 ≤ chunks.countP m.covers then
        once.filter (·.segment = m.start) else [], .done) ∧
      once.Pairwise (·.start < ·.start) ∧ (∀ r ∈ once, r.next ≤ m.stop) ∧
      ∀ writer', n.writer = some writer' →
        ∃ all, writer'.reader.readFrom 0 n.world = (all, .done) ∧ once <+: all := by
  obtain ⟨q, l₀, c₀, hheld⟩ := h.held hz hc
  obtain ⟨l, c, m, hholds, ho, hm⟩ := hheld.tracks hz hc hturns
  obtain ⟨capacity, hlies⟩ := hholds.lies
  have hstore : writer.reader.store = id := hheld.store
  have hindex : n.index = id := ho.index.resolve_right hopen
  have hkeeps : Store.Keeps q id c n.world := by
    rw [← hindex] at hopen ⊢
    exact hholds.index.resolve_left hopen
  have hlist : Store.Listable id c n.world := by
    refine hlies.listable ?_ hroom
    rw [hholds.durable_eq]
    exact Nat.le_add_right _ _
  have hmeets : writer.reader.Meets q l c n.world := {
    calm := hholds.calm
    cipher := hheld.alike.cipher ▸ hc
    lies := ⟨capacity, hlies.alike hheld.alike⟩
    index := by
      rw [hstore]
      exact .inr ⟨hkeeps, hlist⟩ }
  have hmark : writer.reader.watermark n.world = .ok m n.world := Reader.watermark_eq hm.mark
  obtain ⟨ss, once, w', ⟨more, hss⟩, honce, hchunks, hread⟩ := hmeets.readFrom_of_had
    (hstore.symm ▸ hopen) hmark hm.had (hheld.alike.cipher ▸ hseq)
    (hheld.alike.cipher ▸ hm.legible)
  have hlt : ∀ r ∈ Segment.records 0 ss, r.start < r.next := fun r hr =>
    (bounds_of_mem_records hr).2.1
  refine ⟨m, c.chunks.values, w', once, hmark, hchunks, hread, ?_, ?_, ?_⟩
  · rw [honce]
    refine List.Pairwise.filter _ ((pairwise_records 0 ss).imp_of_mem fun hr _ hle => ?_)
    exact (hlt _ hr).trans_le hle
  · intro r hr
    rw [honce] at hr
    exact of_decide_eq_true (List.mem_filter.1 hr).2
  · intro writer' hwriter
    have hfirst : once <+: l.records := by
      rw [honce]
      refine (isPrefix_filter_next (pairwise_records 0 ss) hlt m.stop).trans ?_
      rw [Log.records, ← hss, records_append]
      exact List.prefix_append _ _
    obtain ⟨o, i, w₁, g₁⟩ := n
    cases hwriter
    cases hholds with
    | held h' =>
      have hall := filter_start_zero l.records
      have hlist' : Store.Listable writer'.store c w₁ := by
        have hid : i = id := hindex
        rw [h'.store, hid]
        exact hlist
      refine ⟨l.records, ?_, hfirst⟩
      exact hall ▸ h'.settled.readFrom hlist' ⟨[], List.nil_prefix, rfl⟩

theorem Turn.run (cfg : Config) (steps : List Step) (writer : Writer) (id : StoreId) (w : World)
    (g : Ledger) : ∃ g', Relation.ReflTransGen (Turn cfg) ⟨some writer, id, w, g⟩
      ⟨some (run steps (writer, w)).2.1, id, (run steps (writer, w)).2.2, g'⟩ := by
  induction steps generalizing writer w g with
  | nil => exact ⟨g, .refl⟩
  | cons step steps ih =>
    obtain ⟨g', hsteps⟩ := ih (step.take (writer, w)).2.1 (step.take (writer, w)).2.2
      (g.after step.action (step.take (writer, w)).1 writer (step.take (writer, w)).2.1)
    exact ⟨g', .head (.act writer id w g step) hsteps⟩

/-- The writer lost its record and another one took its place, with one that was sealed and one that
is live. The reader shows the first of them, and only once. -/
theorem readFrom_kept_replaced :
    ∃ writer id w g n m chunks w', Life .plain (some writer) id w g ∧
      Relation.ReflTransGen (Turn .plain) ⟨some writer, id, w, g⟩ n ∧
      writer.reader.watermark n.world = .ok m n.world ∧ m.stop = 9 ∧
      writer.reader.chunks n.world = .ok chunks w' ∧ chunks.countP m.covers = 1 ∧
      writer.reader.readFrom 0 n.world = ([⟨[10], 0, 0, 2⟩], .done) ∧
      ∃ writer' all, n.writer = some writer' ∧ writer'.reader.readFrom 0 n.world = (all, .done) ∧
        [⟨[10], 0, 0, 2⟩] <+: all := by
  have hlife := (Life.found World.sound_blank (World.Calm.returns rfl) (by decide) Founding.blank
    rfl).act ⟨.append [1, 2, 3, 4, 5, 6, 7, 8] (by decide), {}⟩
  obtain ⟨writer, w, g, hlife, hopen, hfacts⟩ : ∃ writer w g, Life .plain (some writer) 0 w g ∧
      w.stores[0]?.any (!·.closed) = true ∧
      (Writer.resume .plain 0).passes (fun writer' w =>
        let s := (run [⟨.append [10] (by decide), {}⟩, ⟨.sealLive, {}⟩,
          ⟨.append [11] (by decide), {}⟩] (writer', w.under 0 {})).2
        let shown := writer.reader.readAmid 0 [] (fun _ => {}) s
        shown.records == [⟨[10], 0, 0, 2⟩] && shown.last == .done &&
          s.2.stores[0]?.any (!·.closed) && !s.2.stores[0]?.any (·.medium.inFile) &&
          writer.reader.watermark.passes (fun m w => m.stop == 9 &&
            writer.reader.chunks.passes (fun chunks _ => chunks.countP m.covers == 1) w) s.2)
        (w.under 0 {}) = true :=
    ⟨_, _, _, hlife, by decide +kernel, by decide +kernel⟩
  obtain ⟨writer', w₁, hop, hfacts⟩ := Op.exists_of_passes hfacts
  have hentered : Relation.ReflTransGen (Turn .plain) ⟨some writer, 0, w, g⟩
      ⟨some writer', 0, w₁.under 0 {}, g.cut⟩ :=
    .tail (.tail .refl (.drop writer 0 w g)) (.enter _ (.refl _) (by decide) (.of_open hopen) {} hop)
  obtain ⟨g', hrun⟩ := Turn.run .plain [⟨.append [10] (by decide), {}⟩, ⟨.sealLive, {}⟩,
    ⟨.append [11] (by decide), {}⟩] writer' 0 (w₁.under 0 {}) g.cut
  generalize run _ (writer', w₁.under 0 {}) = out at hrun hfacts
  simp only [Bool.and_eq_true, beq_iff_eq, Bool.not_eq_true'] at hfacts
  obtain ⟨⟨⟨⟨hrecords, hlast⟩, hstore⟩, hmemory⟩, hmarks⟩ := hfacts
  have hshut : ¬ Store.Shut 0 out.2.2 := by
    rintro ⟨t, ht, hclosed⟩
    simp [ht, hclosed] at hstore
  obtain ⟨m, chunks, w', once, hmark, hchunks, hread, -, -, hfirst⟩ := hlife.readFrom_kept
    Compressor.lawful_identity Cipher.lawful_identity Cipher.sequential_identity
    (hentered.trans hrun) hshut (.of_memory hmemory)
  have hmarks := Op.check_of_passes hmark _ hmarks
  rw [Bool.and_eq_true, beq_iff_eq] at hmarks
  have hcount := beq_iff_eq.1 (Op.check_of_passes hchunks _ hmarks.2)
  rw [hcount, if_neg (by omega), List.append_nil] at hread
  obtain rfl : _ = once :=
    congrArg Prod.fst ((Reader.readFrom_of_readAmid hrecords hlast).symm.trans hread)
  obtain ⟨all, hall, hpre⟩ := hfirst _ rfl
  exact ⟨writer, 0, w, g, _, m, chunks, w', hlife, hentered.trans hrun, hmark, hmarks.1, hchunks,
    hcount, hread, _, all, rfl, hall, hpre⟩

/-- Once that one is sealed too, the reader shows the first of them again behind the second. -/
theorem kept_reader_repeats :
    ∃ writer id w g n, Life .plain (some writer) id w g ∧
      Relation.ReflTransGen (Turn .plain) ⟨some writer, id, w, g⟩ n ∧
      (∃ writer', n.writer = some writer' ∧ writer'.reader.readFrom 0 n.world =
        ([⟨[10], 0, 0, 2⟩, ⟨[11], 2, 2, 4⟩], .done)) ∧
      writer.reader.readFrom 0 n.world =
        ([⟨[10], 0, 0, 2⟩, ⟨[11], 2, 2, 4⟩, ⟨[10], 0, 0, 2⟩], .done) := by
  have hlife := (Life.found World.sound_blank (World.Calm.returns rfl) (by decide) Founding.blank
    rfl).act ⟨.append [1, 2, 3, 4, 5, 6, 7, 8] (by decide), {}⟩
  obtain ⟨writer, w, g, hlife, hopen, hfacts⟩ : ∃ writer w g, Life .plain (some writer) 0 w g ∧
      w.stores[0]?.any (!·.closed) = true ∧
      (Writer.resume .plain 0).passes (fun writer' w =>
        let s := (run [⟨.append [10] (by decide), {}⟩, ⟨.sealLive, {}⟩,
          ⟨.append [11] (by decide), {}⟩, ⟨.sealLive, {}⟩] (writer', w.under 0 {})).2
        let shown := s.1.reader.readAmid 0 [] (fun _ => {}) s
        let shown' := writer.reader.readAmid 0 [] (fun _ => {}) s
        shown.records == [⟨[10], 0, 0, 2⟩, ⟨[11], 2, 2, 4⟩] && shown.last == .done &&
          shown'.records == [⟨[10], 0, 0, 2⟩, ⟨[11], 2, 2, 4⟩, ⟨[10], 0, 0, 2⟩] &&
          shown'.last == .done) (w.under 0 {}) = true :=
    ⟨_, _, _, hlife, by decide +kernel, by decide +kernel⟩
  obtain ⟨writer', w₁, hop, hfacts⟩ := Op.exists_of_passes hfacts
  have hentered : Relation.ReflTransGen (Turn .plain) ⟨some writer, 0, w, g⟩
      ⟨some writer', 0, w₁.under 0 {}, g.cut⟩ :=
    .tail (.tail .refl (.drop writer 0 w g)) (.enter _ (.refl _) (by decide) (.of_open hopen) {} hop)
  obtain ⟨g', hrun⟩ := Turn.run .plain [⟨.append [10] (by decide), {}⟩, ⟨.sealLive, {}⟩,
    ⟨.append [11] (by decide), {}⟩, ⟨.sealLive, {}⟩] writer' 0 (w₁.under 0 {}) g.cut
  generalize run _ (writer', w₁.under 0 {}) = out at hrun hfacts
  simp only [Bool.and_eq_true, beq_iff_eq] at hfacts
  obtain ⟨⟨⟨hrecords, hlast⟩, hrecords'⟩, hlast'⟩ := hfacts
  exact ⟨writer, 0, w, g, _, hlife, hentered.trans hrun,
    ⟨_, rfl, Reader.readFrom_of_readAmid hrecords hlast⟩,
    Reader.readFrom_of_readAmid hrecords' hlast'⟩

end RecordLog
