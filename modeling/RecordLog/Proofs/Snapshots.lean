import Mathlib
import RecordLog.Proofs.Interleaving
import RecordLog.Proofs.Reading
import RecordLog.Proofs.SegmentFiles

/-!
# What a scan shows of a log

However the writer goes on in the meantime, a scan shows the records that the log had when the
watermark was read. A segment that was listed as a chunk stays one, and a segment that was live
either still has its file, perhaps with more in it, or its chunk is found when the chunks are listed
again.
-/

namespace RecordLog

open Record Segment

variable {q : Place} {l l₁ l₂ : Log} {c c₁ c₂ : Catalog} {s s₁ s₂ : Writer × World}
  {start stop : Nat} {waits : Waits}

/-- Where a record of a log starts, or the log ends. -/
def Log.Boundary (l : Log) (p : Nat) : Prop := ∃ ps, ps <+: l.payloads ∧ p = extent ps

/-- A position that lies inside no record of the live segment. -/
def Log.Admits (l : Log) (p : Nat) : Prop :=
  ∀ r ∈ line l.base l.base l.live.payloads, r.start < p → r.next ≤ p

/-- A position that lies inside no record of a line is where one of them starts, or their end. -/
theorem exists_split_of_line {segment pos start : Nat} {ps : List Bytes}
    (h : ∀ r ∈ line segment pos ps, r.start < start → r.next ≤ start) (hle : pos ≤ start)
    (hlt : start ≤ pos + extent ps) : ∃ skip rest, ps = skip ++ rest ∧ start = pos + extent skip := by
  induction ps generalizing pos with
  | nil => exact ⟨[], [], rfl, Nat.le_antisymm hlt hle⟩
  | cons p ps ih =>
    rcases Nat.eq_or_lt_of_le hle with heq | hpos
    · exact ⟨[], p :: ps, rfl, heq.symm⟩
    · have hnext : pos + size p ≤ start := h _ List.mem_cons_self hpos
      rw [extent_cons, ← Nat.add_assoc] at hlt
      obtain ⟨skip, rest, rfl, hstart⟩ :=
        ih (fun r hr => h r (List.mem_cons_of_mem _ hr)) hnext hlt
      exact ⟨p :: skip, rest, rfl, by rw [hstart, extent_cons, Nat.add_assoc]⟩

theorem Log.Admits.split (h : l.Admits start) (hlt : start < l.stop) (hpos : 0 < l.live.size) :
    ∃ skip ps, l.live.payloads = skip ++ ps ∧ ps ≠ [] ∧
      min (start - l.base) l.live.size = extent skip ∧
      (line l.base (l.base + extent skip) ps).filter (start ≤ ·.start) =
        (line l.base l.base l.live.payloads).filter (start ≤ ·.start) := by
  by_cases hle : start ≤ l.base
  · refine ⟨[], l.live.payloads, rfl, fun hnil => ?_, ?_, rfl⟩
    · rw [Segment.size, hnil] at hpos
      exact absurd hpos (Nat.lt_irrefl 0)
    · rw [Nat.sub_eq_zero_of_le hle]
      exact Nat.zero_min _
  · obtain ⟨skip, rest, hlive, rfl⟩ := exists_split_of_line h (Nat.le_of_not_le hle) (Nat.le_of_lt hlt)
    have hstop : l.stop = l.base + extent (skip ++ rest) := by rw [← hlive]; rfl
    rw [extent_append] at hstop
    refine ⟨skip, rest, hlive, ?_, ?_, ?_⟩
    · rintro rfl
      simp only [extent_nil] at hstop
      omega
    · rw [Nat.add_sub_cancel_left, Segment.size, hlive, extent_append,
        Nat.min_eq_left (Nat.le_add_right _ _)]
    · rw [hlive, line_append, List.filter_append, filter_line_of_ge (Nat.le_refl _),
        List.nil_append]

theorem Log.Boundary.admits (h : l.Boundary start) : l.Admits start := by
  obtain ⟨qs, ⟨rest, hrest⟩, rfl⟩ := h
  have hbase : l.base = extent (l.sealed.flatMap Segment.payloads) := span_eq _
  intro r hr hlt
  have hbounds := bounds_of_mem_line hr
  rcases List.append_eq_append_iff.1 hrest with ⟨as, has, -⟩ | ⟨skip, rfl, hlive⟩
  · rw [hbase, has, extent_append] at hbounds
    omega
  · rw [hlive, line_append, List.mem_append] at hr
    rw [extent_append, ← hbase] at hlt ⊢
    rcases hr with hr | hr
    · exact (bounds_of_mem_line hr).2.2
    · have := (bounds_of_mem_line hr).1
      omega

/-- Chunks that open one after the other show together what each of them shows. -/
theorem Reader.collectAmid_chunks {r : Reader} (waits : Nat → Waits)
    {P : Writer × World → Prop} {shown : (Nat × Segment) × (Nat × Chunk) → List Record}
    {zs : List ((Nat × Segment) × (Nat × Chunk))} (tail : List Source)
    (hwanted : ∀ z ∈ zs, start < z.2.2.stop ∧ z.2.2.start < stop → ∀ steps s, P s →
      ∃ cur s', (do
          Writing.goOn steps
          Writing.onWorld (r.openChunk z.2.2 stop)) s = .ok cur s' ∧
        cur.drain start = (shown z, none) ∧ P s')
    (hunwanted : ∀ z ∈ zs, ¬ (start < z.2.2.stop ∧ z.2.2.start < stop) → shown z = [])
    (hs : P s) :
    ∃ s', P s' ∧ r.collectAmid start stop waits
        (((zs.map (·.2.2)).filter (Plan.wants start stop)).map .chunk ++ tail) s =
      (zs.flatMap shown ++ (r.collectAmid start stop waits tail s').1,
        (r.collectAmid start stop waits tail s').2) := by
  induction zs generalizing s with
  | nil => exact ⟨s, hs, rfl⟩
  | cons z zs ih =>
    have ih {s : Writer × World} (hs : P s) :=
      ih (fun z hz => hwanted z (List.mem_cons_of_mem _ hz))
        (fun z hz => hunwanted z (List.mem_cons_of_mem _ hz)) hs
    cases hw : Plan.wants start stop z.2.2 with
    | false =>
      obtain ⟨s', hs', heq⟩ := ih hs
      refine ⟨s', hs', ?_⟩
      rw [List.map_cons, List.filter_cons_of_neg (by simp [hw]), heq, List.flatMap_cons,
        hunwanted z List.mem_cons_self (by simpa [Plan.wants] using hw), List.nil_append]
    | true =>
      obtain ⟨cur, s₁, hopen, hdrain, hs₁⟩ := hwanted z List.mem_cons_self
        (by simpa [Plan.wants] using hw) (waits (((zs.map (·.2.2)).filter
          (Plan.wants start stop)).map Source.chunk ++ tail).length).opening s hs
      obtain ⟨s', hs', heq⟩ := ih hs₁
      refine ⟨s', hs', ?_⟩
      rw [List.map_cons, List.filter_cons_of_pos hw, List.map_cons, List.cons_append,
        Reader.collectAmid, Reader.openAmid, hopen]
      simp only [hdrain, heq, List.flatMap_cons, List.append_assoc]

section reading

variable {r : Reader} {m : Watermark} {listing : List Step} {waits : Nat → Waits}
  (hmark : r.watermark s.2 = .ok m s.2) (hgo : Writing.goOn listing s = .ok () s₁)
include hmark hgo

theorem Reader.readAmid_of_chunks {cs : List Chunk} {w : World}
    (hx : r.chunks s₁.2 = .ok cs w) :
    r.readAmid start listing waits s =
      let out := r.collectAmid start m.stop waits (Plan.build m cs start).sources (s₁.1, w)
      { records := out.1, last := out.2.1, stop := some m.stop, after := out.2.2 } := by
  simp only [readAmid, scanAmid, planAmid, bind, EStateM.bind, Writing.onWorld, hmark, hgo, hx, pure,
    EStateM.pure]
  rfl

theorem Reader.readAmid_of_error {e : Error} {w : World}
    (hx : r.chunks s₁.2 = .error (.error e) w) :
    r.readAmid start listing waits s = { last := .error e, after := (s₁.1, w) } := by
  simp only [readAmid, scanAmid, planAmid, bind, EStateM.bind, Writing.onWorld, hmark, hgo, hx]

end reading

section opening

variable {r : Reader} {m : Watermark} {waits : Waits} {writer : Writer} {w : World}
  (hgo : Writing.goOn waits.opening s₁ = .ok () (writer, w))
include hgo

theorem Reader.openAmid_of_ok {cur : Cursor} {w' : World}
    (hx : r.openLive m start w = .ok cur w') :
    r.openAmid start stop waits (.live m) s₁ = .ok cur (writer, w') := by
  simp only [openAmid, bind, EStateM.bind, hgo, tryCatch, tryCatchThe, MonadExceptOf.tryCatch,
    EStateM.tryCatch, Writing.onWorld, hx]

theorem Reader.openAmid_of_missing {e : Error} (hx : r.openLive m start w = .error (.error e) w)
    (he : e.isMissing = true) :
    r.openAmid start stop waits (.live m) s₁ = r.relistAmid stop waits m e (writer, w) := by
  simp only [openAmid, bind, EStateM.bind, hgo, tryCatch, tryCatchThe, MonadExceptOf.tryCatch,
    EStateM.tryCatch, Writing.onWorld, hx, EStateM.Backtrackable.restore, EStateM.dummyRestore, he,
    if_true]

end opening

namespace Follows

theorem listable (h : Follows q l c s l₁ c₁ s₁) (hl : Store.Listable s.1.store c₁ s₁.2) :
    Store.Listable s.1.store c s.2 := by
  intro st hst hfile chunk hchunk
  obtain ⟨st₁, hst₁, -⟩ := h.settled.carries.index
  rw [h.store] at hst₁
  refine hl st₁ hst₁ ((h.inFile st st₁ hst hst₁).trans hfile) chunk ?_
  obtain ⟨e, he, rfl⟩ := List.mem_map.1 hchunk
  exact List.mem_map_of_mem (h.entries.subset he)

theorem sealed_of_mem_zip (h : Follows q l c s l₁ c₁ s₁) (hs : Settled q l c s)
    {z : (Nat × Segment) × (Nat × Chunk)}
    (hz : z ∈ (placed 0 l.sealed).zip c.chunks.entries) :
    Sealed s.1.config q s₁.2.disk z.1 z.2 :=
  h.config ▸ List.forall₂_zip h.settled.carries.chunks
    (h.grows.mem_zip hs.carries.chunks.length_eq h.entries hz)

theorem goOn (h : Follows q l c s l₁ c₁ s₁) (steps : List Step) :
    ∃ l₂ c₂ s₂, Writing.goOn steps s₁ = .ok () s₂ ∧ Follows q l c s l₂ c₂ s₂ := by
  obtain ⟨l₂, c₂, h₂, -⟩ := h.settled.run steps
  exact ⟨l₂, c₂, _, rfl, h.trans h₂⟩

theorem openChunk (h : Follows q l c s l₁ c₁ s₁) (hs : Settled q l c s)
    {z : (Nat × Segment) × (Nat × Chunk)} (hz : z ∈ (placed 0 l.sealed).zip c.chunks.entries)
    {ps : List Bytes} (hps : ps <+: z.1.2.payloads) (hstop : min stop z.2.2.stop = z.1.1 + extent ps)
    (steps : List Step) :
    ∃ cur l₂ c₂ s₂, (do
        Writing.goOn steps
        Writing.onWorld (s.1.reader.openChunk z.2.2 stop)) s₁ = .ok cur s₂ ∧
      cur.Holds z.1.1 z.1.1 ps ∧ Follows q l c s l₂ c₂ s₂ := by
  obtain ⟨l₂, c₂, ⟨writer, w⟩, hgo, h₂⟩ := h.goOn steps
  have hopen := Reader.ends_openChunk (r := s.1.reader) (w := w)
    (show w.disk.enter s.1.config.path = .ok q from h₂.config ▸ h₂.settled.carries.home)
    (h₂.sealed_of_mem_zip hs hz) hps hstop
  cases hx : s.1.reader.openChunk z.2.2 stop w with
  | error e w' => exact absurd h₂.settled.calm (hopen.error hx).2
  | ok cur w' =>
    obtain ⟨hcur, hi⟩ := hopen.ok hx
    refine ⟨cur, l₂, c₂, (writer, w'), ?_, hcur, h₂.idle hi⟩
    simp only [bind, EStateM.bind, hgo, Writing.onWorld, hx]

theorem size_pos (h : Settled q l c s) : ∀ p ∈ placed 0 l.sealed, 0 < p.2.size := by
  intro p hp
  have hchunks := h.carries.chunks
  obtain ⟨i, hi, rfl⟩ := List.getElem_of_mem hp
  exact ((List.forall₂_iff_get.1 hchunks).2 i hi (hchunks.length_eq ▸ hi)).size_pos

theorem placement (h : Follows q l c s l₁ c₁ s₁) {z : (Nat × Segment) × (Nat × Chunk)}
    (hz : z ∈ (placed 0 l₁.sealed).zip c₁.chunks.entries) : l.Placement z.1 :=
  h.grows.placement (size_pos h.settled) (List.of_mem_zip hz).1

theorem collect_chunks (h : Follows q l c s l₁ c₁ s₁) (h₂ : Follows q l₁ c₁ s₁ l₂ c₂ s₂)
    (start : Nat) (waits : Nat → Waits) (tail : List Source)
    {zs : List ((Nat × Segment) × (Nat × Chunk))}
    (hz : ∀ z ∈ zs, z ∈ (placed 0 l₁.sealed).zip c₁.chunks.entries) :
    ∃ l₃ c₃ s₃, Follows q l₁ c₁ s₁ l₃ c₃ s₃ ∧
      s₁.1.reader.collectAmid start l.stop waits
          (((zs.map (·.2.2)).filter (Plan.wants start l.stop)).map .chunk ++ tail) s₂ =
        ((zs.flatMap fun z => (line z.1.1 z.1.1 (l.part z.1)).filter (start ≤ ·.start)) ++
          (s₁.1.reader.collectAmid start l.stop waits tail s₃).1,
        (s₁.1.reader.collectAmid start l.stop waits tail s₃).2) := by
  have hsealed {z : (Nat × Segment) × (Nat × Chunk)} (hmem : z ∈ zs) :=
    List.forall₂_zip h.settled.carries.chunks (hz z hmem)
  obtain ⟨s₃, ⟨l₃, c₃, h₃⟩, heq⟩ := Reader.collectAmid_chunks (r := s₁.1.reader) waits
    (P := fun s₃ => ∃ l₃ c₃, Follows q l₁ c₁ s₁ l₃ c₃ s₃) tail
    (by
      rintro z hmem hw steps s₃ ⟨l₃, c₃, h₃⟩
      obtain ⟨hpre, hmin⟩ := Log.part_of_wanted (hsealed hmem) (h.placement (hz z hmem)) hw.2
      obtain ⟨cur, l₄, c₄, s₄, hopen, hcur, h₄⟩ :=
        h₃.openChunk h.settled (hz z hmem) hpre hmin steps
      exact ⟨cur, s₄, hopen,
        hcur.drain (fun x hx => (hsealed hmem).writable x (hpre.subset hx)) start, l₄, c₄, h₄⟩)
    (fun z hmem => Log.part_of_unwanted (hsealed hmem) (h.placement (hz z hmem))) ⟨l₂, c₂, h₂⟩
  exact ⟨l₃, c₃, s₃, h₃, heq⟩

theorem live_or_sealed (h : Follows q l c s l₁ c₁ s₁) :
    s.1.config.Reaches (bufferFileName l.base) ∧
      ((∃ bytes more, s₁.2.disk.Holds (q ++ [bufferFileName l.base]) bytes ∧
          Written s.1.config.cipher l.watermark.id 0 ((l.live.payloads ++ more).map encode) bytes) ∨
        s₁.2.disk.names.get? (q ++ [bufferFileName l.base]) = none ∧
          ∃ z ∈ (placed 0 l₁.sealed).zip c₁.chunks.entries, z.1.1 = l.base ∧
            l.live.payloads <+: z.1.2.payloads) :=
  h.config ▸ h.settled.carries.lies.live_or_sealed h.grows

theorem relist (h : Follows q l c s l₁ c₁ s₁) {z : (Nat × Segment) × (Nat × Chunk)}
    (hz : z ∈ (placed 0 l₁.sealed).zip c₁.chunks.entries) (hbase : z.1.1 = l.base)
    (hpre : l.live.payloads <+: z.1.2.payloads) (waits : Waits) (e : Error) :
    ∃ l₂ c₂ s₂, Follows q l c s l₂ c₂ s₂ ∧
      ((∃ cur, s.1.reader.relistAmid l.stop waits l.watermark e s₁ = .ok cur s₂ ∧
          cur.Holds l.base l.base l.live.payloads) ∨
        ((∃ e', s.1.reader.relistAmid l.stop waits l.watermark e s₁ = .error (.error e') s₂) ∧
          ¬ Store.Listable s.1.store c₂ s₂.2)) := by
  obtain ⟨l₂, c₂, ⟨writer, w⟩, hgo, h₁₂⟩ := h.settled.refl.goOn waits.listing
  have h₂ := h.trans h₁₂
  have hlist := Reader.ends_chunks (r := s.1.reader) (w := w)
    (show Store.Offers s.1.store c₂ w from h₂.store ▸ h₂.settled.carries.index.offers)
  cases hx : s.1.reader.chunks w with
  | error stop w' =>
    obtain ⟨hi, hf, hcalm⟩ := hlist.error hx
    obtain ⟨e', rfl⟩ := hf h₂.settled.calm.returns
    refine ⟨l₂, c₂, (writer, w'), h₂.idle hi, .inr ⟨⟨e', ?_⟩, fun hl => ?_⟩⟩
    · simp only [Reader.relistAmid, bind, EStateM.bind, hgo, Writing.onWorld, hx]
    · exact hcalm h₂.settled.calm fun st hst => hl st (hi.stores ▸ hst)
  | ok cs w' =>
    obtain ⟨rfl, hi⟩ := hlist.ok hx
    have h₂' := h₂.idle hi
    have hz := h₁₂.grows.mem_zip h.settled.carries.chunks.length_eq h₁₂.entries hz
    have hfind := find?_of_mem_zip h₂'.settled.carries.chunks hz
    rw [hbase] at hfind
    have hmin : min l.stop z.2.2.stop = z.1.1 + extent l.live.payloads := by
      have hle := extent_le_of_prefix hpre
      have hstop : l.stop = l.base + extent l.live.payloads := rfl
      rw [(List.forall₂_zip h₂'.settled.carries.chunks hz).stop, Segment.size]
      omega
    obtain ⟨cur, l₃, c₃, s₃, hopen, hcur, h₃⟩ := h₂'.settled.refl.openChunk h₂'.settled hz hpre hmin
      waits.reopening
    have hreader : writer.reader = s.1.reader := by
      rw [Writer.reader, Writer.reader, show writer.config = s.1.config from h₂.config,
        show writer.store = s.1.store from h₂.store, show writer.mark = s.1.mark from h₂.mark]
    rw [hreader] at hopen
    refine ⟨l₃, c₃, s₃, h₂'.trans h₃, .inl ⟨cur, ?_, hbase ▸ hcur⟩⟩
    have hfind' : c₂.chunks.values.find? (fun ch => decide (ch.start = l.watermark.start)) =
        some z.2.2 := hfind
    simp only [Reader.relistAmid, bind, EStateM.bind, hgo, Writing.onWorld, hx, hfind'] at hopen ⊢
    exact hopen

theorem openLive (h : Follows q l c s l₁ c₁ s₁) (hs : Settled q l c s) (hb : l.Admits start)
    (hlt : start < l.stop) (hpos : 0 < l.live.size) (waits : Waits) :
    ∃ l₂ c₂ s₂, Follows q l c s l₂ c₂ s₂ ∧
      ((∃ cur, s.1.reader.openAmid start l.stop waits (.live l.watermark) s₁ = .ok cur s₂ ∧
          cur.drain start =
            ((line l.base l.base l.live.payloads).filter (start ≤ ·.start), none)) ∨
        ((∃ e, s.1.reader.openAmid start l.stop waits (.live l.watermark) s₁ =
          .error (.error e) s₂) ∧ ¬ Store.Listable s.1.store c₂ s₂.2)) := by
  have hwritable := hs.carries.writable
  obtain ⟨l₂, c₂, ⟨writer, w⟩, hgo, h₂⟩ := h.goOn waits.opening
  obtain ⟨hreach, hfile⟩ := h₂.live_or_sealed
  have hq : w.disk.enter s.1.config.path = .ok q := h₂.config ▸ h₂.settled.carries.home
  obtain ⟨skip, ps, hsplit, hne, hmin, hrest⟩ := hb.split hlt hpos
  rcases hfile with ⟨bytes, more, hbytes, hw⟩ | ⟨hnone, z, hz, hbase, hpre⟩
  · have hopen := Reader.ends_openLive (r := s.1.reader) (m := l.watermark) hq
      hreach hs.cipher hbytes (hsplit ▸ hw) (by rw [← hsplit]; rfl) hne hmin
    cases hx : s.1.reader.openLive l.watermark start w with
    | error e w' => exact absurd h₂.settled.calm (hopen.error hx).2
    | ok cur w' =>
      obtain ⟨hcur, hi⟩ := hopen.ok hx
      refine ⟨l₂, c₂, (writer, w'), h₂.idle hi, .inl ⟨cur, Reader.openAmid_of_ok hgo hx, ?_⟩⟩
      rw [hcur.drain (fun x hx => hwritable x (hsplit ▸ List.mem_append_right _ hx)), ← hrest]
      rfl
  · have hmissing := Reader.openLive_of_missing (r := s.1.reader) (m := l.watermark) hq hreach
      start hnone
    rw [Reader.openAmid_of_missing hgo hmissing rfl]
    obtain ⟨l₃, c₃, s₃, h₃, ⟨cur, hok, hcur⟩ | herr⟩ := h₂.relist hz hbase hpre waits
      (.io "open live buffer" IoCause.noEntry)
    · exact ⟨l₃, c₃, s₃, h₃, .inl ⟨cur, hok, hcur.drain hwritable start⟩⟩
    · exact ⟨l₃, c₃, s₃, h₃, .inr herr⟩

theorem reader_eq (h : Follows q l c s l₁ c₁ s₁) : s₁.1.reader = s.1.reader := by
  rw [Writer.reader, Writer.reader, h.config, h.store, h.mark]

theorem collect_live (h : Follows q l c s l₁ c₁ s₁) (hs : Settled q l c s) (hb : l.Admits start)
    (hlt : start < l.stop) (hpos : 0 < l.live.size) (waits : Nat → Waits)
    {out : List Record × Item × (Writer × World)}
    (hout : s.1.reader.collectAmid start l.stop waits [.live l.watermark] s₁ = out) :
    ∃ l₂ c₂, Follows q l c s l₂ c₂ out.2.2 ∧
      (Store.Listable s.1.store c₂ out.2.2.2 →
        out.1 = (line l.base l.base l.live.payloads).filter (start ≤ ·.start) ∧ out.2.1 = .done) := by
  obtain ⟨l₂, c₂, s₂, h₂, ⟨cur, hopen, hdrain⟩ | ⟨⟨e, hopen⟩, hnot⟩⟩ :=
    h.openLive hs hb hlt hpos (waits 0)
  · simp only [Reader.collectAmid, List.length_nil, hopen, hdrain, List.append_nil] at hout
    subst hout
    exact ⟨l₂, c₂, h₂, fun _ => ⟨rfl, rfl⟩⟩
  · simp only [Reader.collectAmid, List.length_nil, hopen] at hout
    subst hout
    exact ⟨l₂, c₂, h₂, fun hl => absurd hl hnot⟩

/-- All sources of a plan together show the records from the start position on. -/
theorem collect_plan (h : Follows q l c s l₁ c₁ s₁) (hs : Settled q l c s) (hb : l.Admits start)
    (waits : Nat → Waits) {out : List Record × Item × (Writer × World)}
    (hout : out = s.1.reader.collectAmid start l.stop waits
      (Plan.build l.watermark c₁.chunks.values start).sources s₁) :
    ∃ l₂ c₂, Follows q l c s l₂ c₂ out.2.2 ∧
      (Store.Listable s.1.store c₂ out.2.2.2 →
        out.1 = l.records.filter (start ≤ ·.start) ∧ out.2.1 = .done) := by
  have hchunks := h.settled.carries.chunks
  have hsize := size_pos h.settled
  obtain ⟨zs, hzs⟩ : ∃ zs, zs = (placed 0 l₁.sealed).zip c₁.chunks.entries := ⟨_, rfl⟩
  have hvalues : c₁.chunks.entries.map Prod.snd = zs.map (·.2.2) := by
    rw [hzs, map_snd_zip hchunks]
  change out = s.1.reader.collectAmid start l.stop waits
    (Plan.build l.watermark (c₁.chunks.entries.map Prod.snd) start).sources s₁ at hout
  have hread (tail : List Source) :=
    h.collect_chunks h.settled.refl start waits tail (fun z (hz : z ∈ zs) => hzs ▸ hz)
  have hparts : zs.flatMap (fun z => (line z.1.1 z.1.1 (l.part z.1)).filter (start ≤ ·.start)) =
      ((placed 0 l₁.sealed).flatMap fun p => line p.1 p.1 (l.part p)).filter (start ≤ ·.start) := by
    rw [List.filter_flatMap, hzs, ← flatMap_zip hchunks]
  rw [h.reader_eq, hparts] at hread
  rcases h.grows.cases with ⟨hsame, -, -⟩ | ⟨seg, rest, hsame, -, hpre⟩
  · rw [Plan.sources_of_live hsame hchunks, hvalues] at hout
    have hrecords := Log.records_of_live hsame hsize
    by_cases hlive : start < l.stop ∧ 0 < l.live.size
    · rw [if_pos hlive] at hout
      obtain ⟨l₂, c₂, s₂, h₂, heq⟩ := hread [.live l.watermark]
      obtain ⟨last, hlast⟩ : ∃ last,
          s.1.reader.collectAmid start l.stop waits [.live l.watermark] s₂ = last := ⟨_, rfl⟩
      obtain ⟨l₃, c₃, h₃, hshown⟩ := (h.trans h₂).collect_live hs hb hlive.1 hlive.2 waits hlast
      rw [heq, hlast] at hout
      subst hout
      refine ⟨l₃, c₃, h₃, fun hl => ⟨?_, (hshown hl).2⟩⟩
      rw [hrecords, List.filter_append]
      exact congrArg _ (hshown hl).1
    · rw [if_neg hlive] at hout
      obtain ⟨l₂, c₂, s₂, h₂, heq⟩ := hread []
      rw [heq, Reader.collectAmid] at hout
      subst hout
      refine ⟨l₂, c₂, h.trans h₂, fun _ => ⟨?_, rfl⟩⟩
      have hnone : (line l.base l.base l.live.payloads).filter (start ≤ ·.start) = [] := by
        by_cases hnil : l.live.payloads = []
        · rw [hnil]
          rfl
        · refine filter_line_of_ge (Nat.le_of_not_lt fun hlt => hlive ⟨hlt, extent_pos hnil⟩)
      rw [hrecords, List.filter_append, hnone]
  · rw [Plan.sources_of_sealed hsame hpre hchunks, hvalues] at hout
    obtain ⟨l₂, c₂, s₂, h₂, heq⟩ := hread []
    rw [List.append_nil] at heq
    rw [heq, Reader.collectAmid] at hout
    subst hout
    refine ⟨l₂, c₂, h.trans h₂, fun _ => ⟨?_, rfl⟩⟩
    rw [Log.records_of_sealed hsame hsize, List.append_nil]

end Follows

namespace Settled

/-- A scan shows the records that the log had when the watermark was read, from its start on. -/
theorem readAmid_of_admits (h : Settled q l c s) (hb : l.Admits start) (listing : List Step)
    (waits : Nat → Waits) :
    ∃ l' c', Follows q l c s l' c' (s.1.reader.readAmid start listing waits s).after ∧
      (Store.Listable s.1.store c' (s.1.reader.readAmid start listing waits s).after.2 →
        (s.1.reader.readAmid start listing waits s).records =
            l.records.filter (start ≤ ·.start) ∧
          (s.1.reader.readAmid start listing waits s).last = .done ∧
          (s.1.reader.readAmid start listing waits s).stop = some l.stop) := by
  have hmark : s.1.reader.watermark s.2 = .ok l.watermark s.2 :=
    Reader.watermark_eq h.carries.mark
  obtain ⟨l₁, c₁, ⟨writer₁, w₁⟩, hgo, h₁⟩ := h.refl.goOn listing
  have hlist := Reader.ends_chunks (r := s.1.reader) (w := w₁)
    (show Store.Offers s.1.store c₁ w₁ from h₁.store ▸ h₁.settled.carries.index.offers)
  cases hx : s.1.reader.chunks w₁ with
  | error stop w₂ =>
    obtain ⟨hi, hf, hcalm⟩ := hlist.error hx
    obtain ⟨e, rfl⟩ := hf h₁.settled.calm.returns
    rw [Reader.readAmid_of_error hmark hgo hx]
    refine ⟨l₁, c₁, h₁.idle hi, fun hl => ?_⟩
    exact absurd (fun st hst => hl st (hi.stores ▸ hst)) (hcalm h₁.settled.calm)
  | ok cs w₂ =>
    obtain ⟨rfl, hi⟩ := hlist.ok hx
    have h₁' := h₁.idle hi
    rw [Reader.readAmid_of_chunks hmark hgo hx, Log.stop_watermark]
    obtain ⟨l₂, c₂, h₂, hshown⟩ := h₁'.collect_plan h hb waits rfl
    exact ⟨l₂, c₂, h₂, fun hl => ⟨(hshown hl).1, (hshown hl).2, rfl⟩⟩

theorem readAmid (h : Settled q l c s) (hb : l.Boundary start) (listing : List Step)
    (waits : Nat → Waits) :
    ∃ l' c', Follows q l c s l' c' (s.1.reader.readAmid start listing waits s).after ∧
      (Store.Listable s.1.store c' (s.1.reader.readAmid start listing waits s).after.2 →
        (s.1.reader.readAmid start listing waits s).records =
            l.records.filter (start ≤ ·.start) ∧
          (s.1.reader.readAmid start listing waits s).last = .done ∧
          (s.1.reader.readAmid start listing waits s).stop = some l.stop) :=
  h.readAmid_of_admits hb.admits listing waits

end Settled

end RecordLog
