import Mathlib
import RecordLog.Proofs.Planning
import RecordLog.Proofs.Runs

/-!
# Opening segments for reading

While a writer has a log, a chunk can be opened up to any record in it, and the live segment from
any record on. Opening leaves the world as it is but for the record of calls, and in a calm world
it cannot fail.
-/

namespace RecordLog

open Record Segment World

/-- A cursor in front of the records of some payloads. -/
structure Cursor.Holds (cur : Cursor) (segment pos : Nat) (ps : List Bytes) : Prop where
  segment : cur.segment = segment
  pos : cur.pos = pos
  rest : cur.rest = contents ps
  unfinished : cur.finished = false

theorem Cursor.Holds.drain {cur : Cursor} {segment pos : Nat} {ps : List Bytes}
    (h : cur.Holds segment pos ps) (hp : ∀ p ∈ ps, Writable p) (start : Nat) :
    cur.drain start = ((line segment pos ps).filter (start ≤ ·.start), none) := by
  rw [Cursor.drain_contents h.unfinished h.rest hp, h.segment, h.pos]

/-- An index that can list its chunks: if it is in a file, all numbers have 64 bits. -/
def Store.Listable (id : StoreId) (c : Catalog) (w : World) : Prop :=
  ∀ s, w.stores[id]? = some s → s.medium.inFile = true → ∀ chunk ∈ c.chunks.values, chunk.Small

theorem Store.Listable.idle {id : StoreId} {c : Catalog} {w w' : World} (h : Listable id c w)
    (hi : Idle w w') : Listable id c w' := fun s hs => h s (hi.stores ▸ hs)

namespace Reader

variable {r : Reader} {q : Place} {c : Catalog} {w : World} {start stop : Nat}

theorem watermark_eq {m : Watermark} (h : w.marks[r.mark]? = some m) :
    r.watermark w = .ok m w := by
  simp only [watermark, List.getD_eq_getElem?_getD, h, Option.getD_some]

theorem scan_eq {m : Watermark} {chunks : List Chunk} {w' : World}
    (hm : r.watermark w = .ok m w) (hc : r.chunks w = .ok chunks w') (start : Nat) :
    r.scan start w = .ok { reader := r, plan := .build m chunks start } w' := by
  simp only [scan, plan, bind, EStateM.bind, hm, hc, pure, EStateM.pure]

theorem ends_chunks (h : Store.Offers r.store c w) :
    Ends r.chunks w (fun cs w' => cs = c.chunks.values ∧ Idle w w')
      fun stop w' => Idle w w' ∧ Failed w stop ∧ (w.Calm → ¬ Store.Listable r.store c w) := by
  refine (Store.ends_request h .chunks).mono ?_ ?_
  · rintro cs w' ⟨hi, c', hc'⟩
    cases hc'
    exact ⟨rfl, hi⟩
  · rintro stop w' ⟨hi, hf, hcalm⟩
    exact ⟨hi, hf, hcalm⟩

theorem chunks_eq (h : Store.Offers r.store c w) (hcalm : w.Calm)
    (hl : Store.Listable r.store c w) :
    ∃ w', r.chunks w = .ok c.chunks.values w' ∧ Idle w w' := by
  cases hx : r.chunks w with
  | error stop w' => exact absurd hl (((ends_chunks h).error hx).2.2 hcalm)
  | ok cs w' =>
    obtain ⟨rfl, hi⟩ := (ends_chunks h).ok hx
    exact ⟨w', rfl, hi⟩

section chunk

variable {p : Nat × Segment} {e : Nat × Chunk} (hq : w.disk.enter r.config.path = .ok q)
  (h : Sealed r.config q w.disk p e)
include hq h

theorem ends_openChunk_eq (hle : p.1 ≤ stop) :
    Ends (r.openChunk e.2 stop) w
      (fun cur w' => cur = {
        name := e.2.file
        segment := p.1
        pos := p.1
        rest := (contents p.2.payloads).take (min stop e.2.stop - p.1)
        lenient := min stop e.2.stop - p.1 < e.2.size } ∧ Idle w w')
      fun _ w' => Idle w w' ∧ ¬ w.Calm := by
  obtain ⟨bytes, hb, -, hd⟩ := h.artifact
  have hn : Path.Plain e.2.file := h.file ▸ (LogName.chunk p.1).plain
  have hsize : (contents p.2.payloads).length = e.2.size := by
    rw [length_contents, h.size, Segment.size]
  have hstop := h.stop
  refine (Chunk.ends_load hq hn (h.file ▸ h.reaches) (h.file ▸ hb) hd hsize).bind ?_
    fun _ _ hE => hE
  rintro _ w' ⟨rfl, hi⟩
  have hdiff : Op.difference (min stop e.2.stop) e.2.start w' =
      .ok (min stop e.2.stop - p.1) w' := by
    rw [h.start, Op.difference_eq (by omega)]
  refine Ends.bind_of_eq hdiff (Ends.bind_of_eq (Op.frontOf_eq ?_ w') ?_)
  · rw [hsize, h.size]
    omega
  exact ends_pure ⟨by rw [h.start], hi⟩

theorem ends_openChunk {ps : List Bytes} (hps : ps <+: p.2.payloads)
    (hstop : min stop e.2.stop = p.1 + extent ps) :
    Ends (r.openChunk e.2 stop) w (fun cur w' => cur.Holds p.1 p.1 ps ∧ Idle w w')
      fun _ w' => Idle w w' ∧ ¬ w.Calm := by
  obtain ⟨more, hmore⟩ := hps
  refine (ends_openChunk_eq hq h (by omega)).mono ?_ fun _ _ hE => hE
  rintro cur w' ⟨rfl, hi⟩
  refine ⟨⟨rfl, rfl, ?_, rfl⟩, hi⟩
  dsimp only
  rw [hstop, Nat.add_sub_cancel_left, ← hmore, contents_append, ← length_contents ps,
    List.take_left]

theorem ends_openChunk_upTo (hle : p.1 ≤ stop) :
    Ends (r.openChunk e.2 stop) w
      (fun cur w' => (∀ start, cur.drain start =
        (((line p.1 p.1 p.2.payloads).filter (·.next ≤ stop)).filter (start ≤ ·.start), none)) ∧
        Idle w w')
      fun _ w' => Idle w w' ∧ ¬ w.Calm := by
  refine (ends_openChunk_eq hq h hle).mono ?_ fun _ _ hE => hE
  rintro cur w' ⟨rfl, hi⟩
  refine ⟨fun start => ?_, hi⟩
  have hstop := h.stop
  have hsize := h.size
  by_cases hcut : stop < e.2.stop
  · have hmin : min stop e.2.stop - p.1 = stop - p.1 := by rw [Nat.min_eq_left (Nat.le_of_lt hcut)]
    have hpos : p.1 + (stop - p.1) = stop := Nat.add_sub_cancel' hle
    have hlenient : decide (stop - p.1 < e.2.size) = true := by
      rw [decide_eq_true_eq]
      omega
    rw [hmin, hlenient, Cursor.drain_take_contents (k := stop - p.1) rfl rfl rfl h.writable, hpos]
  · have hmin : min stop e.2.stop - p.1 = p.2.size := by omega
    have hall : (line p.1 p.1 p.2.payloads).filter (·.next ≤ stop) = line p.1 p.1 p.2.payloads := by
      refine List.filter_eq_self.2 fun x hx => ?_
      have hbounds := bounds_of_mem_line hx
      have hextent : p.2.size = extent p.2.payloads := rfl
      rw [decide_eq_true_eq]
      omega
    rw [hall]
    refine Cursor.drain_contents rfl ?_ h.writable start
    dsimp only
    rw [hmin, Segment.size, ← length_contents, List.take_length]

end chunk

section live

variable {m : Watermark} (hq : w.disk.enter r.config.path = .ok q)
  (hr : r.config.Reaches (bufferFileName m.start))
include hq hr

theorem ends_openLive_eq {bytes plain : Bytes} {skip : Nat}
    (hb : w.disk.Holds (q ++ [bufferFileName m.start]) bytes)
    (hstart : min (start - m.start) m.pos = skip)
    (hplain : r.config.cipher.decodeAt m.id skip ((bytes.drop skip).take (m.pos - skip)) =
      .ok plain) :
    Ends (r.openLive m start) w
      (fun cur w' => cur = {
        name := bufferFileName m.start
        segment := m.start
        pos := m.start + skip
        rest := plain
        lenient := true } ∧ Idle w w')
      fun _ w' => Idle w w' ∧ ¬ w.Calm := by
  obtain ⟨fid, x, hid, hx, rfl⟩ := hb
  have hfind : w.disk.find (r.config.locate (bufferFileName m.start)) = .ok (.file fid) := by
    rw [Disk.find_of_reaches hq (LogName.live m.start).plain hr, hid]
  have hdiff : Op.difference m.pos skip w = .ok (m.pos - skip) w := Op.difference_eq (by omega) w
  rw [← Sparse.range_eq] at hplain
  refine (Op.ends_lookAtDisk _ _ w).bind ?_ ?_
  swap
  · rintro stop w' ⟨-, cause, he, -⟩
    rw [hfind] at he
    cases he
  rintro entry w' ⟨rfl, he⟩
  obtain rfl : Entry.file fid = entry := Except.ok.inj (hfind.symm.trans he)
  rw [hstart]
  refine Ends.bind_of_eq hdiff (Ends.bind_of_eq
    (a := x.range skip (m.pos - skip)) (t := w') ?_ ?_)
  · have : (w'.disk.content fid).range skip (m.pos - skip) = x.range skip (m.pos - skip) := by
      rw [hx]
      rfl
    rw [← this]
    rfl
  refine (Op.ends_call_of_ok hplain w').bind ?_ fun _ _ hE => hE
  rintro _ w'' ⟨rfl, hi⟩
  exact ends_pure ⟨rfl, hi⟩

/-- The live segment from some record on, though its file may have grown since. -/
theorem ends_openLive (hc : r.config.cipher.Lawful) {bytes : Bytes} {skip ps more : List Bytes}
    (hb : w.disk.Holds (q ++ [bufferFileName m.start]) bytes)
    (hw : Written r.config.cipher m.id 0 ((skip ++ ps ++ more).map encode) bytes)
    (hpos : m.pos = extent (skip ++ ps)) (hne : ps ≠ [])
    (hstart : min (start - m.start) m.pos = extent skip) :
    Ends (r.openLive m start) w
      (fun cur w' => cur.Holds m.start (m.start + extent skip) ps ∧ Idle w w')
      fun _ w' => Idle w w' ∧ ¬ w.Calm := by
  have hrange : Written r.config.cipher m.id (extent skip) (ps.map encode)
      ((bytes.drop (extent skip)).take (extent ps)) := by
    rw [List.append_assoc, List.map_append, List.map_append] at hw
    have := hw.drop.take
    rwa [length_flatten_map_encode, length_flatten_map_encode, Nat.zero_add] at this
  have hplain : r.config.cipher.decodeAt m.id (extent skip)
      ((bytes.drop (extent skip)).take (m.pos - extent skip)) = .ok (contents ps) := by
    rw [hpos, extent_append, Nat.add_sub_cancel_left]
    exact hrange.decodeAt_eq hc (by simpa using hne)
  refine (ends_openLive_eq hq hr hb hstart hplain).mono ?_ fun _ _ hE => hE
  rintro cur w' ⟨rfl, hi⟩
  exact ⟨⟨rfl, rfl, rfl, rfl⟩, hi⟩

/-- The live segment from its start on shows the records that end at the watermark at the latest,
whatever became of its file. -/
theorem ends_openLive_upTo (hc : r.config.cipher.Lawful) (hs : r.config.cipher.Sequential)
    {bytes x z : Bytes} {ps : List Bytes} (hb : w.disk.Holds (q ++ [bufferFileName m.start]) bytes)
    (hw : Written r.config.cipher m.id 0 (ps.map encode) bytes) (hp : ∀ p ∈ ps, Writable p)
    (hlegible : r.config.cipher.decodeAt m.id 0 x = .ok z) (hstart : start ≤ m.start) :
    Ends (r.openLive m start) w
      (fun cur w' => cur.drain start =
        (((line m.start m.start ps).filter (·.next ≤ m.stop)).filter (start ≤ ·.start), none) ∧
          Idle w w')
      fun _ w' => Idle w w' ∧ ¬ w.Calm := by
  have hplain : r.config.cipher.decodeAt m.id 0 ((bytes.drop 0).take (m.pos - 0)) =
      .ok ((contents ps).take m.pos) := by
    rw [List.drop_zero, Nat.sub_zero]
    by_cases hne : ps = []
    · subst hne
      rw [show bytes = [] from hw, List.take_nil, contents_nil, List.take_nil]
      exact hs.decodeAt_nil hlegible
    · exact hw.decodeAt_take hc hs (by simpa using hne) m.pos
  refine (ends_openLive_eq hq hr hb (by omega) hplain).mono ?_ fun _ _ hE => hE
  rintro cur w' ⟨rfl, hi⟩
  exact ⟨Cursor.drain_take_contents rfl rfl rfl hp start, hi⟩

theorem openLive_of_missing (start : Nat)
    (hn : w.disk.names.get? (q ++ [bufferFileName m.start]) = none) :
    r.openLive m start w = .error (.error (.io "open live buffer" IoCause.noEntry)) w := by
  have hfind : w.disk.find (r.config.locate (bufferFileName m.start)) =
      .error IoCause.noEntry := by
    rw [Disk.find_of_reaches hq (LogName.live m.start).plain hr, hn]
  simp [openLive, Op.lookAtDisk, Op.onDisk, hfind, Except.map, bind, EStateM.bind]

end live

theorem idle_openChunk (chunk : Chunk) (stop : Nat) (w : World) :
    Ends (r.openChunk chunk stop) w (fun _ w' => Idle w w') fun _ w' => Idle w w' := by
  refine (chunk.ends_load_any w).bind (fun content w₁ hload => ?_) fun _ _ h => h.1
  have h₁ := hload.1
  refine (Op.ends_difference _ _ w₁).bind (fun n w₂ h₂ => ?_) fun _ _ h => h ▸ h₁
  refine (Op.ends_frontOf content n w₂).bind (fun _ w₃ h₃ => ?_) fun _ _ h => h.trans h₂ ▸ h₁
  exact ends_pure (h₃.trans h₂ ▸ h₁)

theorem idle_openLive (m : Watermark) (start : Nat) (w : World) :
    Ends (r.openLive m start) w (fun _ w' => Idle w w') fun _ w' => Idle w w' := by
  refine (Op.ends_lookAtDisk _ _ w).bind (fun entry w₁ h₁ => ?_) fun _ _ h => h.1 ▸ .refl _
  obtain rfl := h₁.1
  refine (Op.ends_difference _ _ w₁).bind (fun n w₂ h₂ => ?_) fun _ _ h => h ▸ .refl _
  subst h₂
  refine Ends.bind (P := fun _ w' => w' = w₂) (F := fun _ w' => w' = w₂) ?_
    (fun bytes w₃ h₃ => ?_) fun _ _ h => h ▸ .refl _
  · cases entry with
    | folder =>
      dsimp only
      split
      · exact ends_pure rfl
      · exact ends_throw rfl
    | file id => exact ends_of_eq_ok rfl rfl
  · subst h₃
    refine (Op.ends_call _ _ _ _).bind (fun _ w₄ h₄ => ?_) fun _ _ h => h.1
    exact ends_pure h₄.1

theorem idle_openSource (hk : Store.Offers r.store c w) (start stop : Nat) (source : Source) :
    Ends (r.openSource start stop source) w (fun _ w' => Idle w w') fun _ w' => Idle w w' := by
  cases source with
  | chunk chunk => exact idle_openChunk chunk stop w
  | live m =>
    refine Ends.catch_stop (idle_openLive m start w) fun stop' w₁ h₁ => ?_
    cases stop' with
    | crash => exact ends_throw h₁
    | error e =>
      dsimp only
      split
      · refine (ends_chunks (hk.idle h₁)).bind (fun cs w₂ h₂ => ?_)
          fun _ _ h => h₁.trans h.1
        have h₂ := h₁.trans h₂.2
        split
        · rename_i chunk _
          exact (idle_openChunk chunk stop w₂).mono (fun _ _ h => h₂.trans h)
            fun _ _ h => h₂.trans h
        · exact ends_throw h₂
      · exact ends_throw h₁

end Reader

namespace Scan

variable {s : Scan} {c : Catalog} {w : World}

theorem idle_advance (hk : Store.Offers s.reader.store c w) (sources : List Source) :
    (s.advance sources w).2.1.reader = s.reader ∧ Idle w (s.advance sources w).2.2 := by
  induction sources generalizing s w with
  | nil => exact ⟨rfl, .refl w⟩
  | cons source rest ih =>
    have hopen := Reader.idle_openSource hk s.plan.start s.plan.stop source
    rw [advance]
    cases hx : s.reader.openSource s.plan.start s.plan.stop source w with
    | error stop w' =>
      have hi := hopen.error hx
      cases stop <;> exact ⟨rfl, hi⟩
    | ok cur w' =>
      have hi := hopen.ok hx
      dsimp only
      split
      · exact ⟨rfl, hi⟩
      · exact ⟨rfl, hi⟩
      · obtain ⟨hr, hi'⟩ := ih (s := { s with plan := { s.plan with sources := rest }, cursor := none })
          (hk.idle hi)
        exact ⟨hr, hi.trans hi'⟩

theorem idle_next (hk : Store.Offers s.reader.store c w) :
    (s.next w).2.1.reader = s.reader ∧ Idle w (s.next w).2.2 := by
  unfold next
  split
  · exact ⟨rfl, .refl w⟩
  split
  · exact idle_advance hk _
  split
  · exact ⟨rfl, .refl w⟩
  · exact ⟨rfl, .refl w⟩
  · exact idle_advance hk _

theorem idle_collect (hk : Store.Offers s.reader.store c w) : Idle w (s.collect w).2.2.2 := by
  fun_induction collect s w with
  | case1 s w r s' w' hn _ records rest heq ih =>
    have := idle_next hk
    rw [hn] at this
    have hi := ih (this.1 ▸ hk.idle this.2)
    rw [heq] at hi
    exact this.2.trans hi
  | case2 s w hn =>
    exact (idle_next hk).2

end Scan

/-- An index in a file holds positions and lengths as numbers of 64 bits. It has room for a log that
ends at such a position, among files that are no longer than that. -/
def Store.HasRoom (id : StoreId) (stop : Nat) (w : World) : Prop :=
  ∀ s, w.stores[id]? = some s → s.medium.inFile = true →
    stop < 2 ^ 64 ∧ ∀ f, (w.disk.content f).size < 2 ^ 64

theorem Segment.Sealed.small {cfg : Config} {q : Place} {d : Disk} {p : Nat × Segment}
    {e : Nat × Chunk} (h : Sealed cfg q d p e) (hstop : p.1 + p.2.size < 2 ^ 64)
    (hfiles : ∀ f, (d.content f).size < 2 ^ 64) : e.2.Small := by
  have hrecords := length_le_extent p.2.payloads
  obtain ⟨bytes, ⟨f, x, -, hx, rfl⟩, hlen, -⟩ := h.artifact
  have hsize : x.size < 2 ^ 64 := by
    have := hfiles f
    rwa [hx] at this
  have hname : e.2.file.utf8ByteSize ≤ 255 := h.file ▸ h.reaches.short
  rw [Sparse.length_toBytes] at hlen
  change p.1 + extent p.2.payloads < 2 ^ 64 at hstop
  refine ⟨by omega, ?_, ?_, by omega, ?_⟩
  · rw [h.start]
    omega
  · rw [h.size, Segment.size]
    omega
  · rw [h.records]
    omega

theorem small_of_forall₂ {cfg : Config} {q : Place} {d : Disk} {ss : List Segment} {c : Catalog}
    (h : List.Forall₂ (Sealed cfg q d) (placed 0 ss) c.chunks.entries)
    (hstop : span ss < 2 ^ 64) (hfiles : ∀ f, (d.content f).size < 2 ^ 64) :
    ∀ chunk ∈ c.chunks.values, chunk.Small := by
  intro chunk hchunk
  obtain ⟨e, he, rfl⟩ := List.mem_map.1 hchunk
  obtain ⟨p, hp, hpe⟩ := exists_of_mem_right h he
  have := (bounds_of_mem_placed hp).2
  exact hpe.small (by omega) hfiles

theorem Writer.Carries.listable {q : Place} {l : Log} {c : Catalog} {writer : Writer} {w : World}
    (h : Carries q l c writer w) (hroom : Store.HasRoom writer.store writer.buffer.stop w) :
    Store.Listable writer.store c w := by
  intro s hs hf
  obtain ⟨hstop, hfiles⟩ := hroom s hs hf
  rw [h.stop_eq] at hstop
  exact small_of_forall₂ h.chunks ((Nat.le_add_right _ _).trans_lt hstop) hfiles

end RecordLog
