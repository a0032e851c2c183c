import Mathlib
import RecordLog.Proofs.Scans
import RecordLog.Proofs.UnlinkedWriters

/-!
# Scans of a log whose live file lost its name

A reader finds files by their names. As long as the live segment is not sealed, a scan that comes to
it stops with an error behind the records of the chunks. Sealing makes a chunk of it, and then the
name that was lost is one that nobody looks for.
-/

namespace RecordLog

open Record Segment

variable {cfg : Config} {q : Place} {d : Disk} {l l₁ l₂ : Log} {c c₁ c₂ : Catalog}
  {s s₁ s' : Writer × World} {first start stop : Nat} {gone name : String}

namespace Disk

theorem get?_of_without {p p' : Place} {e : Entry} (h : (d.without p).names.get? p' = some e) :
    d.names.get? p' = some e := by
  rw [get?_without] at h
  split at h
  · cases h
  · exact h

theorem Sound.without (h : d.Sound) (p : Place) : (d.without p).Sound where
  there _ id hid := h.there _ id (get?_of_without hid)
  single _ _ id hid hid' := h.single _ _ id (get?_of_without hid) (get?_of_without hid')
  ordinary := h.ordinary

theorem sameFile_without (hne : name ≠ gone) (d : Disk) (q : Place) :
    SameFile q name d (d.without (q ++ [gone])) where
  names := by rw [get?_without, if_neg (by simpa using Ne.symm hne)]
  content _ _ := rfl

end Disk

theorem Segment.Sealed.without {p : Nat × Segment} {e : Nat × Chunk} (h : Sealed cfg q d p e)
    (first : Nat) : Sealed cfg q (d.without (q ++ [bufferFileName first])) p e := by
  have hchunk := Disk.sameFile_without (chunkFileName_ne_bufferFileName p.1 first) d q
  by_cases heq : p.1 = first
  · exact { h with
      artifact := by
        obtain ⟨bytes, hb, hrest⟩ := h.artifact
        exact ⟨bytes, hchunk.holds hb, hrest⟩
      left := .inl (by rw [heq, Disk.get?_without, if_pos rfl]) }
  · exact h.frame hchunk (Disk.sameFile_without (fun hn => heq (bufferFileName_injective hn)) d q)

theorem Medium.Keeps.without {m : Medium} (h : m.Keeps q c d) (hn : LogName gone) :
    m.Keeps q c (d.without (q ++ [gone])) := by
  cases m with
  | memory _ => exact h
  | file id =>
    obtain ⟨⟨p, hp, hne⟩, hrest⟩ := h
    refine ⟨⟨p, ?_, hne⟩, hrest⟩
    rw [Disk.get?_without, if_neg (Ne.symm (hne gone hn))]
    exact hp

theorem Store.Keeps.without {id : StoreId} {w : World} (h : Keeps q id c w) (hn : LogName gone) :
    Keeps q id c (w.without (q ++ [gone])) := by
  obtain ⟨st, hst, hc, hp, hk⟩ := h
  exact ⟨st, hst, hc, hp, Medium.Keeps.without hk hn⟩

theorem Settled.without {writer : Writer} {w : World} (h : Settled q l c (writer, w))
    (hl : w.disk.Loose writer.config q (bufferFileName first)) (hne : first ≠ l.base) :
    Settled q l c (writer, w.without (q ++ [bufferFileName first])) where
  carries := { h.carries with
    home := hl.lost.home
    sound := h.carries.sound.without _
    index := h.carries.index.without (.live first)
    chunks := h.carries.chunks.imp fun _ _ hs => hs.without first
    file := h.carries.file.frame rfl rfl (Nat.le_refl _)
    linked := by
      have hplace : q ++ [bufferFileName first] ≠ q ++ [bufferFileName l.base] := by
        simpa using fun hn => hne (bufferFileName_injective hn)
      have hget := Disk.get?_without w.disk (q ++ [bufferFileName first])
        (q ++ [bufferFileName l.base])
      rw [if_neg hplace] at hget
      exact hget.trans h.carries.linked }
  compressor := h.compressor
  cipher := h.cipher
  calm := h.calm
  willing := h.willing

namespace Log

theorem Grows.base_le (h : l.Grows l₁) : l.base ≤ l₁.base := by
  rcases h.cases with ⟨hs, -, -⟩ | ⟨seg, rest, hs, -, -⟩
  · rw [base, base, hs]
  · rw [base, base, hs, span_append]
    exact Nat.le_add_right _ _

theorem Grows.sealed_or_lt (h : l.Grows l₁) (hpos : ∀ p ∈ placed 0 l₁.sealed, 0 < p.2.size) :
    l₁.sealed = l.sealed ∨ l.base < l₁.base := by
  rcases h.cases with ⟨hs, -, -⟩ | ⟨seg, rest, hs, -, -⟩
  · exact .inl hs
  · have hseg : 0 < seg.size := hpos (l.base, seg) (by
      rw [hs, placed_append, Nat.zero_add, placed]
      simp [base])
    right
    rw [base, base, hs, span_append, span_cons]
    omega

theorem filter_records (l : Log) :
    l.records.filter (·.start < l.base) = Segment.records 0 l.sealed := by
  have hsealed : (Segment.records 0 l.sealed).filter (·.start < l.base) =
      Segment.records 0 l.sealed := by
    refine List.filter_eq_self.2 fun r hr => ?_
    have := bounds_of_mem_records hr
    rw [decide_eq_true_eq, base]
    omega
  have hlive : (Segment.records (0 + span l.sealed) [l.live]).filter (·.start < l.base) = [] := by
    refine List.filter_eq_nil_iff.2 fun r hr => ?_
    have := bounds_of_mem_records hr
    rw [decide_eq_true_eq, base]
    omega
  rw [records, records_append, List.filter_append, hsealed, hlive, List.append_nil]

end Log

/-- A later state of a writer that has a log, but for the name of a live file it had. -/
def Bereft (q : Place) (l : Log) (c : Catalog) (s : Writer × World) (first : Nat) (l₁ : Log)
    (c₁ : Catalog) (s' : Writer × World) : Prop :=
  ∃ s₁, Follows q l c s l₁ c₁ s₁ ∧ Writer.Lacks s.1.config q first s₁ s'

namespace Bereft

theorem home (h : Bereft q l c s first l₁ c₁ s') :
    s'.2.disk.enter s.1.config.path = .ok q := by
  obtain ⟨s₁, -, hl⟩ := h
  rw [hl.world.eq]
  exact hl.world.loose.lost.home

theorem missing (h : Bereft q l c s first l₁ c₁ s') :
    s'.2.disk.names.get? (q ++ [bufferFileName first]) = none := by
  obtain ⟨s₁, -, hl⟩ := h
  rw [hl.world.eq]
  exact (Disk.get?_without _ _ _).trans (if_pos rfl)

theorem chunks (h : Bereft q l c s first l₁ c₁ s') :
    List.Forall₂ (Sealed s.1.config q s'.2.disk) (placed 0 l₁.sealed) c₁.chunks.entries := by
  obtain ⟨s₁, hf, hl⟩ := h
  have hchunks : List.Forall₂ (Sealed s.1.config q s₁.2.disk) (placed 0 l₁.sealed)
      c₁.chunks.entries := hf.config ▸ hf.settled.carries.chunks
  rw [hl.world.eq]
  exact hchunks.imp fun _ _ hs => hs.without first

theorem size_pos (h : Bereft q l c s first l₁ c₁ s') : ∀ p ∈ placed 0 l₁.sealed, 0 < p.2.size := by
  obtain ⟨s₁, hf, -⟩ := h
  exact Follows.size_pos hf.settled

theorem offers (h : Bereft q l c s first l₁ c₁ s') : Store.Offers s.1.store c₁ s'.2 := by
  obtain ⟨s₁, hf, hl⟩ := h
  rw [hl.world.eq]
  exact ((hf.store ▸ hf.settled.carries.index).without (.live first)).offers

theorem calm (h : Bereft q l c s first l₁ c₁ s') : s'.2.Calm := by
  obtain ⟨s₁, hf, hl⟩ := h
  rw [hl.world.eq]
  exact hf.settled.calm

theorem grows (h : Bereft q l c s first l₁ c₁ s') : l.Grows l₁ := by
  obtain ⟨s₁, hf, -⟩ := h
  exact hf.grows

theorem idle {writer : Writer} {w w' : World} (h : Bereft q l c s first l₁ c₁ (writer, w))
    (hi : World.Idle w w') : Bereft q l c s first l₁ c₁ (writer, w') := by
  obtain ⟨⟨writer₁, w₁⟩, hf, hl⟩ := h
  obtain rfl : writer = writer₁ := hl.same
  obtain rfl : w = w₁.without _ := hl.world.eq
  have hi₁ : World.Idle w₁ { w' with disk := w₁.disk } :=
    ⟨rfl, hi.stores, hi.marks, hi.heads, hi.returns, hi.calm⟩
  refine ⟨_, hf.idle hi₁, { hl with world := ⟨hl.world.loose, ?_⟩ }⟩
  have hdisk : w'.disk = w₁.disk.without _ := hi.disk
  change w' = { w' with disk := w₁.disk.without _ }
  rw [← hdisk]

theorem goOn (h : Bereft q l c s first l₁ c₁ s') (steps : List Step) :
    ∃ l₂ c₂ s₂, Writing.goOn steps s' = .ok () s₂ ∧ Bereft q l c s first l₂ c₂ s₂ ∧
      l₁.Grows l₂ ∧ c₁.chunks.entries <+: c₂.chunks.entries := by
  obtain ⟨s₁, hf, hl⟩ := h
  obtain ⟨l₂, c₂, hf₂, -⟩ := hf.settled.run steps
  exact ⟨l₂, c₂, _, rfl, ⟨_, hf.trans hf₂, (hl.run steps).2.2⟩, hf₂.grows, hf₂.entries⟩

theorem mem_zip (h : Bereft q l c s first l₁ c₁ s') (hg : l₁.Grows l₂)
    (he : c₁.chunks.entries <+: c₂.chunks.entries) {z : (Nat × Segment) × (Nat × Chunk)}
    (hz : z ∈ (placed 0 l₁.sealed).zip c₁.chunks.entries) :
    z ∈ (placed 0 l₂.sealed).zip c₂.chunks.entries :=
  hg.mem_zip h.chunks.length_eq he hz

theorem openChunk (h : Bereft q l c s first l₁ c₁ s') {z : (Nat × Segment) × (Nat × Chunk)}
    (hz : z ∈ (placed 0 l₁.sealed).zip c₁.chunks.entries) {ps : List Bytes}
    (hps : ps <+: z.1.2.payloads) (hstop : min stop z.2.2.stop = z.1.1 + extent ps)
    (steps : List Step) :
    ∃ cur l₂ c₂ s₂, (do
        Writing.goOn steps
        Writing.onWorld (s.1.reader.openChunk z.2.2 stop)) s' = .ok cur s₂ ∧
      cur.Holds z.1.1 z.1.1 ps ∧ Bereft q l c s first l₂ c₂ s₂ ∧ l₁.Grows l₂ ∧
      c₁.chunks.entries <+: c₂.chunks.entries := by
  obtain ⟨l₂, c₂, ⟨writer, w⟩, hgo, h₂, hg, he⟩ := h.goOn steps
  have hsealed := List.forall₂_zip h₂.chunks (h.mem_zip hg he hz)
  have hopen := Reader.ends_openChunk (r := s.1.reader) h₂.home hsealed hps hstop
  cases hx : s.1.reader.openChunk z.2.2 stop w with
  | error e w' => exact absurd h₂.calm (hopen.error hx).2
  | ok cur w' =>
    obtain ⟨hcur, hi⟩ := hopen.ok hx
    refine ⟨cur, l₂, c₂, (writer, w'), ?_, hcur, h₂.idle hi, hg, he⟩
    simp only [bind, EStateM.bind, hgo, Writing.onWorld, hx]

theorem collect_chunks (h : Bereft q l c s first l₁ c₁ s') (start : Nat) (waits : Nat → Waits)
    (tail : List Source) {zs : List ((Nat × Segment) × (Nat × Chunk))}
    (hz : ∀ z ∈ zs, z ∈ (placed 0 l₁.sealed).zip c₁.chunks.entries) :
    ∃ l₂ c₂ s₂, Bereft q l c s first l₂ c₂ s₂ ∧ l₁.Grows l₂ ∧
      s.1.reader.collectAmid start l.stop waits
          (((zs.map (·.2.2)).filter (Plan.wants start l.stop)).map .chunk ++ tail) s' =
        ((zs.flatMap fun z => (line z.1.1 z.1.1 (l.part z.1)).filter (start ≤ ·.start)) ++
          (s.1.reader.collectAmid start l.stop waits tail s₂).1,
        (s.1.reader.collectAmid start l.stop waits tail s₂).2) := by
  have hsealed {z : (Nat × Segment) × (Nat × Chunk)} (hmem : z ∈ zs) :=
    List.forall₂_zip h.chunks (hz z hmem)
  have hplace {z : (Nat × Segment) × (Nat × Chunk)} (hmem : z ∈ zs) : l.Placement z.1 :=
    h.grows.placement h.size_pos (List.of_mem_zip (hz z hmem)).1
  obtain ⟨s₂, ⟨l₂, c₂, h₂, hg, -⟩, heq⟩ := Reader.collectAmid_chunks (r := s.1.reader)
    waits (P := fun s₂ => ∃ l₂ c₂, Bereft q l c s first l₂ c₂ s₂ ∧ l₁.Grows l₂ ∧
      c₁.chunks.entries <+: c₂.chunks.entries) tail
    (by
      rintro z hmem hw steps s₂ ⟨l₂, c₂, h₂, hg, he⟩
      obtain ⟨hpre, hmin⟩ := Log.part_of_wanted (hsealed hmem) (hplace hmem) hw.2
      obtain ⟨cur, l₃, c₃, s₃, hopen, hcur, h₃, hg₃, he₃⟩ :=
        h₂.openChunk (h.mem_zip hg he (hz z hmem)) hpre hmin steps
      exact ⟨cur, s₃, hopen,
        hcur.drain (fun x hx => (hsealed hmem).writable x (hpre.subset hx)) start,
        l₃, c₃, h₃, hg.trans hg₃, he.trans he₃⟩)
    (fun z hmem => Log.part_of_unwanted (hsealed hmem) (hplace hmem))
    ⟨l₁, c₁, h, .refl _, List.prefix_refl _⟩
  exact ⟨l₂, c₂, s₂, h₂, hg, heq⟩

theorem reaches (h : Bereft q l c s first l₁ c₁ s') :
    s.1.config.Reaches (bufferFileName l.base) := by
  obtain ⟨s₁, hf, -⟩ := h
  exact hf.live_or_sealed.1

theorem find?_eq_none (h : Bereft q l c s first l₁ c₁ s') (hsame : l₁.sealed = l.sealed) :
    c₁.chunks.values.find? (·.start = l.watermark.start) = none := by
  refine List.find?_eq_none.2 fun chunk hchunk => ?_
  obtain ⟨x, hx, rfl⟩ := List.mem_map.1 hchunk
  obtain ⟨p, hp, hpx⟩ := exists_of_mem_right h.chunks hx
  have hlt := lt_of_mem_placed h.chunks hp
  rw [hsame] at hlt
  rw [decide_eq_true_eq, hpx.start]
  exact Nat.ne_of_lt hlt

theorem ends_relist (h : Bereft q l c s first l₁ c₁ s') (waits : Waits) (e : Error) :
    Ends (s.1.reader.relistAmid l.stop waits l.watermark e) s'
      (fun _ s₂ => ∃ l₂ c₂, Bereft q l c s first l₂ c₂ s₂ ∧ l.base < l₂.base)
      fun stop s₂ => ∃ l₂ c₂, Bereft q l c s first l₂ c₂ s₂ ∧
        (l₂.base = l.base → Store.Listable s.1.store c₂ s₂.2 → stop = .error e) := by
  obtain ⟨l₂, c₂, ⟨writer, w⟩, hgo, h₂, -⟩ := h.goOn waits.listing
  refine Ends.bind_of_eq hgo (Writing.ends_onWorld_bind
    (Reader.ends_chunks (r := s.1.reader) h₂.offers) ?_ ?_)
  swap
  · rintro stop w' ⟨hi, -, hcalm⟩
    refine ⟨l₂, c₂, h₂.idle hi, fun _ hl => ?_⟩
    exact absurd (fun st hst => hl st (hi.stores ▸ hst)) (hcalm h₂.calm)
  rintro _ w' ⟨rfl, hi⟩
  have h₂' := h₂.idle hi
  rcases h₂'.grows.sealed_or_lt h₂'.size_pos with hsame | hlt
  · rw [h₂'.find?_eq_none hsame]
    exact ends_throw ⟨l₂, c₂, h₂', fun _ _ => rfl⟩
  · cases hfind : c₂.chunks.values.find? (fun chunk => decide (chunk.start = l.watermark.start)) with
    | none => exact ends_throw ⟨l₂, c₂, h₂', fun hbase => absurd hbase (Nat.ne_of_gt hlt)⟩
    | some chunk =>
      obtain ⟨l₃, c₃, ⟨writer₃, w₃⟩, hgo₃, h₃, hg, -⟩ := h₂'.goOn waits.reopening
      have hlt := hlt.trans_le hg.base_le
      have hopen := Reader.idle_openChunk (r := s.1.reader) chunk l.stop w₃
      refine Ends.bind_of_eq hgo₃ (Ends.onWorld (hopen.mono ?_ ?_))
      · exact fun _ w₄ hi₄ => ⟨l₃, c₃, h₃.idle hi₄, hlt⟩
      · exact fun _ w₄ hi₄ => ⟨l₃, c₃, h₃.idle hi₄, fun hbase => absurd hbase (Nat.ne_of_gt hlt)⟩

theorem collect_live (h : Bereft q l c s l.base l₁ c₁ s') (waits : Nat → Waits)
    {out : List Record × Item × (Writer × World)}
    (hout : s.1.reader.collectAmid start l.stop waits [.live l.watermark] s' = out) :
    ∃ l₂ c₂, Bereft q l c s l.base l₂ c₂ out.2.2 ∧
      (l₂.base = l.base → Store.Listable s.1.store c₂ out.2.2.2 →
        out.1 = [] ∧ out.2.1 = .error (.io "open live buffer" IoCause.noEntry)) := by
  obtain ⟨l₂, c₂, ⟨writer, w⟩, hgo, h₂, -⟩ := h.goOn (waits 0).opening
  have hmissing := Reader.openLive_of_missing (r := s.1.reader) (m := l.watermark) h₂.home
    h₂.reaches start h₂.missing
  have hrelist := h₂.ends_relist (waits 0) (.io "open live buffer" IoCause.noEntry)
  rw [Reader.collectAmid, List.length_nil, Reader.openAmid_of_missing hgo hmissing rfl] at hout
  cases hx : s.1.reader.relistAmid l.stop (waits 0) l.watermark
      (.io "open live buffer" IoCause.noEntry) (writer, w) with
  | ok cur s₃ =>
    obtain ⟨l₃, c₃, h₃, hlt⟩ := hrelist.ok hx
    rw [hx] at hout
    have hafter : out.2.2 = s₃ := by
      rw [← hout]
      dsimp only
      split <;> rfl
    exact ⟨l₃, c₃, hafter ▸ h₃, fun hbase => absurd hbase (Nat.ne_of_gt hlt)⟩
  | error stop s₃ =>
    obtain ⟨l₃, c₃, h₃, hstop⟩ := hrelist.error hx
    rw [hx] at hout
    have hafter : out.2.2 = s₃ := by
      rw [← hout]
      cases stop <;> rfl
    refine ⟨l₃, c₃, hafter ▸ h₃, fun hbase hl => ?_⟩
    rw [hafter] at hl
    rw [hstop hbase hl] at hout
    subst hout
    exact ⟨rfl, rfl⟩

theorem collect_plan (h : Bereft q l c s l.base l₁ c₁ s') (hstart : start < l.stop)
    (hlive : 0 < l.live.size) (waits : Nat → Waits) {out : List Record × Item × (Writer × World)}
    (hout : s.1.reader.collectAmid start l.stop waits
      (Plan.build l.watermark c₁.chunks.values start).sources s' = out) :
    ∃ l₂ c₂, Bereft q l c s l.base l₂ c₂ out.2.2 ∧
      (l₂.base = l.base → Store.Listable s.1.store c₂ out.2.2.2 →
        out.1 = (Segment.records 0 l.sealed).filter (start ≤ ·.start) ∧
          out.2.1 = .error (.io "open live buffer" IoCause.noEntry)) := by
  have hchunks := h.chunks
  obtain ⟨zs, hzs⟩ : ∃ zs, zs = (placed 0 l₁.sealed).zip c₁.chunks.entries := ⟨_, rfl⟩
  have hvalues : c₁.chunks.entries.map Prod.snd = zs.map (·.2.2) := by
    rw [hzs, map_snd_zip hchunks]
  change s.1.reader.collectAmid start l.stop waits
    (Plan.build l.watermark (c₁.chunks.entries.map Prod.snd) start).sources s' = out at hout
  have hread (tail : List Source) :=
    h.collect_chunks start waits tail (fun z (hz : z ∈ zs) => hzs ▸ hz)
  rcases h.grows.cases with ⟨hsame, -, -⟩ | ⟨seg, rest, hsame, -, hpre⟩
  · rw [Plan.sources_of_live hsame hchunks, hvalues, if_pos ⟨hstart, hlive⟩] at hout
    obtain ⟨l₂, c₂, s₂, h₂, -, heq⟩ := hread [.live l.watermark]
    obtain ⟨last, hlast⟩ : ∃ last,
        s.1.reader.collectAmid start l.stop waits [.live l.watermark] s₂ = last := ⟨_, rfl⟩
    obtain ⟨l₃, c₃, h₃, hshown⟩ := h₂.collect_live waits hlast
    rw [heq, hlast] at hout
    subst hout
    refine ⟨l₃, c₃, h₃, fun hbase hl => ?_⟩
    obtain ⟨hnil, herror⟩ := hshown hbase hl
    refine ⟨?_, herror⟩
    rw [hnil, List.append_nil, ← Log.records_of_chunks hsame h.size_pos, List.filter_flatMap, hzs,
      ← flatMap_zip hchunks]
  · rw [Plan.sources_of_sealed hsame hpre hchunks, hvalues] at hout
    obtain ⟨l₂, c₂, s₂, h₂, hg, heq⟩ := hread []
    rw [List.append_nil] at heq
    rw [heq, Reader.collectAmid] at hout
    subst hout
    refine ⟨l₂, c₂, h₂, fun hbase => ?_⟩
    have hle := hg.base_le
    rcases h.grows.sealed_or_lt h.size_pos with hsealed | hlt
    · rw [hsame] at hsealed
      simp at hsealed
    · exact absurd (hbase ▸ hle) (Nat.not_le.2 hlt)

end Bereft

/-- Until it is sealed, a scan that needs the live segment shows what the chunks have and ends with
an error. -/
theorem Settled.readAmid_lost (h : Settled q l c s) (hl : Writer.Lacks s.1.config q l.base s s')
    (hstart : start < l.stop) (hlive : 0 < l.live.size) (listing : List Step) (waits : Nat → Waits)
    {shown : Reader.Shown} (hshown : s.1.reader.readAmid start listing waits s' = shown) :
    ∃ l₁ c₁, Bereft q l c s l.base l₁ c₁ shown.after ∧
      (l₁.base = l.base → Store.Listable s.1.store c₁ shown.after.2 →
        shown.records = (Segment.records 0 l.sealed).filter (start ≤ ·.start) ∧
          shown.last = .error (.io "open live buffer" IoCause.noEntry) ∧
          shown.stop = some l.stop) := by
  have hmark : s.1.reader.watermark s'.2 = .ok l.watermark s'.2 :=
    Reader.watermark_eq (by rw [hl.world.eq]; exact h.carries.mark)
  obtain ⟨l₁, c₁, ⟨writer, w⟩, hgo, h₁, -⟩ := Bereft.goOn ⟨s, h.refl, hl⟩ listing
  have hlist := Reader.ends_chunks (r := s.1.reader) h₁.offers
  cases hx : s.1.reader.chunks w with
  | error stop w₂ =>
    obtain ⟨hi, hf, hcalm⟩ := hlist.error hx
    obtain ⟨e, rfl⟩ := hf h₁.calm.returns
    rw [← hshown, Reader.readAmid_of_error hmark hgo hx]
    refine ⟨l₁, c₁, h₁.idle hi, fun _ hl => ?_⟩
    exact absurd (fun st hst => hl st (hi.stores ▸ hst)) (hcalm h₁.calm)
  | ok cs w₂ =>
    obtain ⟨rfl, hi⟩ := hlist.ok hx
    rw [← hshown, Reader.readAmid_of_chunks hmark hgo hx, Log.stop_watermark]
    obtain ⟨l₂, c₂, h₂, hout⟩ := (h₁.idle hi).collect_plan hstart hlive waits rfl
    exact ⟨l₂, c₂, h₂, fun hbase hl => ⟨(hout hbase hl).1, (hout hbase hl).2, rfl⟩⟩

end RecordLog
