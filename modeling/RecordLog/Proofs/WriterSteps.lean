import Mathlib
import RecordLog.Proofs.LogInPlace

/-!
# What a writer's operations do to its log

Each operation either does to the log what it is for, or reports an error and leaves the writer,
the watermarks and the index as they were; then `Writer.Unmoved` holds. An append that has to make
room seals the live segment first, and that stays done if the record then fails.
-/

namespace RecordLog

open Record Segment

variable {q : Place} {l : Log} {c : Catalog} {writer : Writer} {w w' : World}

namespace Writing

variable {α : Type} {s : Writer × World} {Q : α → Writer × World → Prop}
  {E : Stop → Writer × World → Prop}

theorem ends_writer_bind {f : Writer → Writing α} (h : Ends (f s.1) s Q E) :
    Ends (Writing.writer >>= f) s Q E := by
  refine Ends.bind (P := fun a s' => a = s.1 ∧ s' = s) (F := fun _ _ => False)
    (ends_of_eq_ok rfl ⟨rfl, rfl⟩) ?_ fun _ _ hF => hF.elim
  rintro a s' ⟨ha, hs⟩
  rw [ha, hs]
  exact h

theorem ends_onWorld_bind {β : Type} {op : Op β} {f : β → Writing α} {writer : Writer} {w : World}
    {P : β → World → Prop} {F : Stop → World → Prop} (h : Ends op w P F)
    (hf : ∀ b w', P b w' → Ends (f b) (writer, w') Q E)
    (hE : ∀ stop w', F stop w' → E stop (writer, w')) :
    Ends (Writing.onWorld op >>= f) (writer, w) Q E := by
  refine (Ends.onWorld (Q := fun b s' => s'.1 = writer ∧ P b s'.2)
    (E := fun stop s' => s'.1 = writer ∧ F stop s'.2) (h.mono (fun _ _ hP => ⟨rfl, hP⟩)
      fun _ _ hF => ⟨rfl, hF⟩)).bind ?_ ?_
  · rintro b ⟨writer', w'⟩ ⟨hw, hP⟩
    obtain rfl : writer' = writer := hw
    exact hf b w' hP
  · rintro stop ⟨writer', w'⟩ ⟨hw, hF⟩
    obtain rfl : writer' = writer := hw
    exact hE stop w' hF

end Writing

namespace Writer

/-- What every operation of a writer goes by. -/
structure Ready (q : Place) (l : Log) (c : Catalog) (writer : Writer) (w : World) : Prop where
  carries : Carries q l c writer w
  compressor : writer.config.compressor.Lawful
  cipher : writer.config.cipher.Lawful
  returns : w.Returns

/-- An operation left no trace but in files that nobody reads. -/
structure Unmoved (q : Place) (l : Log) (c : Catalog) (writer : Writer) (w : World)
    (s' : Writer × World) : Prop where
  same : s'.1 = writer
  carries : Carries q l c writer s'.2
  changes : ∃ F : Footprint, F.From q l.base w.disk ∧ World.Changes F w s'.2

theorem Unmoved.idle (h : Carries q l c writer w) (hi : World.Idle w w') :
    Unmoved q l c writer w (writer, w') where
  same := rfl
  carries := h.changes (F := {}) ⟨by simp, by simp⟩ hi.changes (h.file.idle hi) (by simp)
  changes := ⟨{}, ⟨by simp, by simp⟩, hi.changes⟩

theorem Unmoved.moves {s' : Writer × World} (h : Carries q l c writer w)
    (hu : Unmoved q l c writer w s') : World.Moves q writer.store l.base w s'.2 := by
  obtain ⟨F, hF, hc⟩ := hu.changes
  exact World.Moves.ofChanges h.sound hF hc

theorem footprint_from (h : Carries q l c writer w) :
    writer.buffer.footprint.From q l.base w.disk where
  places p hp := by simp [Buffer.footprint] at hp
  files id hid := by
    simp only [Buffer.footprint, List.mem_singleton] at hid
    exact ⟨l.base, _, Nat.le_refl _, .live, hid ▸ h.linked⟩

theorem moves_marks (hs : w.disk.Sound) (id : StoreId) (start : Nat) (marks : List Watermark) :
    World.Moves q id start w { w with marks } where
  sound := hs
  enter _ h := h
  same _ _ _ _ := .refl _ _ _
  others _ _ := rfl
  stores := .inl rfl
  returns h := h
  calm h := h

def advance (writer : Writer) (n : Nat) : Writer :=
  { writer with buffer := { writer.buffer with pos := writer.buffer.pos + n } }

section writing

variable {pieces : List Bytes}

theorem ends_put (writer : Writer) {pieces : List Bytes} (hc : writer.config.cipher.Lawful)
    (hb : writer.buffer.Carries writer.config.cipher pieces w) (hr : w.Returns)
    (operation : String) (data : Bytes) :
    Ends (put operation data) (writer, w)
      (fun _ s' => s'.1 = writer.advance data.length ∧
        s'.1.buffer.Carries writer.config.cipher (pieces ++ [data]) s'.2 ∧
        World.Changes writer.buffer.footprint w s'.2)
      fun stop s' => (∃ e, stop = .error e) ∧ s'.1 = writer ∧
        writer.buffer.Carries writer.config.cipher pieces s'.2 ∧
        World.Changes writer.buffer.footprint w s'.2 := by
  refine Writing.ends_writer_bind ?_
  refine Writing.ends_onWorld_bind (Buffer.ends_append hc hb hr operation data) ?_ ?_
  · rintro b' w' ⟨rfl, hcar, hch⟩
    exact ends_modify ⟨rfl, hcar, hch⟩
  · rintro stop w' ⟨he, hcar, hch⟩
    exact ⟨he, rfl, hcar, hch⟩

end writing

def withRecord (writer : Writer) (data : Bytes) : Writer :=
  { writer with
    buffer := { writer.buffer with
      pos := writer.buffer.pos + Record.size data
      records := writer.buffer.records + 1 }
    stats := writer.stats.observeValue data.length }

theorem withRecord_eq (writer : Writer) (data : Bytes) :
    let w := (writer.advance (Varint.encode data.length).length).advance data.length
    ({ w with
        buffer := w.buffer.endRecord
        stats := w.stats.observeValue data.length } : Writer) = writer.withRecord data := by
  have hsize : Record.size data = (Varint.encode data.length).length + data.length := by
    rw [Record.size, Varint.length_encode]
  rw [withRecord, hsize, ← Nat.add_assoc]
  rfl

theorem carries_withRecord {cipher : Cipher} (hc : cipher.Lawful) {ps : List Bytes} {data : Bytes}
    (h : ((writer.advance (Varint.encode data.length).length).advance data.length).buffer.Carries
      cipher (ps.map encode ++ [Varint.encode data.length] ++ [data]) w) :
    (writer.withRecord data).buffer.Carries cipher ((ps ++ [data]).map encode) w := by
  obtain ⟨x, hx, hw⟩ := h.written
  have hmap : (ps ++ [data]).map encode = ps.map encode ++ [Varint.encode data.length ++ data] :=
    List.map_append
  rw [← withRecord_eq, hmap]
  refine ⟨?_, h.head, h.there, x, hx, Written.merge hc ?_⟩
  · exact h.pos.trans (by simp)
  · rw [List.append_assoc] at hw
    exact hw

theorem Carries.withRecord (h : Carries q l c writer w) {data : Bytes} (hd : Writable data)
    {w₁ : World} (hch : World.Changes writer.buffer.footprint w w₁)
    (hf : (writer.withRecord data).buffer.Carries writer.config.cipher
      ((l.push data).live.payloads.map encode) w₁) :
    Carries q (l.push data) c (writer.withRecord data)
      { w₁ with marks := w₁.marks.set writer.mark (writer.withRecord data).buffer.watermark } := by
  have hm : World.Moves q writer.store l.base w w₁ :=
    .ofChanges h.sound (footprint_from h) hch
  have hstate : (writer.withRecord data).buffer.toBufferState =
      (l.push data).state writer.buffer.capacity := by
    have hb : (writer.withRecord data).buffer.toBufferState = { writer.buffer.toBufferState with
        pos := writer.buffer.pos + Record.size data
        records := writer.buffer.records + 1 } := rfl
    rw [hb, h.pos_eq, h.records_eq, h.state, Log.state, Log.state, Log.size_push]
    simp [Log.push, Log.base]
  have hrows : List.Forall₂ (Sealed writer.config q w₁.disk) (placed 0 l.sealed)
      c.chunks.entries := Sealed.moves h.chunks hm
  have hmark : (writer.withRecord data).buffer.watermark = (l.push data).watermark := by
    rw [hstate]
    rfl
  refine ⟨hm.enter _ h.home, hm.sound, ?_, hrows, hstate, ?_, ?_, ?_, h.reaches, ?_, ?_, ?_⟩
  · have hk := h.index.changes h.sound (footprint_from h).inLog hch
    exact hk
  · exact hf.frame rfl rfl (Nat.le_refl _)
  · intro x hx
    simp only [Log.push, List.mem_append, List.mem_singleton] at hx
    rcases hx with hx | rfl
    · exact h.writable x hx
    · exact hd
  · exact (hch.disk.names _ (by simp [Buffer.footprint])).trans h.linked
  · have hlen : writer.mark < w₁.marks.length := by
      obtain ⟨hlt, -⟩ := List.getElem?_eq_some_iff.1 h.mark
      rwa [hch.marks]
    rw [hmark]
    exact List.getElem?_set_self hlen
  · exact h.kept.trans (by simp [Log.push])
  · rw [h.described, Log.cut_push h.kept]
    rfl

theorem Unmoved.ofFootprint (h : Carries q l c writer w) {s' : Writer × World}
    (hw : s'.1 = writer)
    (hf : writer.buffer.Carries writer.config.cipher (l.live.payloads.map encode) s'.2)
    (hch : World.Changes writer.buffer.footprint w s'.2) : Unmoved q l c writer w s' where
  same := hw
  carries := h.changes (footprint_from h) hch hf (by simp [Buffer.footprint])
  changes := ⟨_, footprint_from h, hch⟩

/-- Writing a record adds it to the log or leaves the log as it was. -/
theorem ends_writeRecord (h : Ready q l c writer w) {data : Bytes} (hd : Writable data) :
    Ends (writeRecord data) (writer, w)
      (fun n s' => n = (l.push data).stop ∧ s'.1 = writer.withRecord data ∧
        Carries q (l.push data) c s'.1 s'.2 ∧ World.Moves q writer.store l.base w s'.2)
      fun stop s' => (∃ e, stop = .error e) ∧ Unmoved q l c writer w s' := by
  obtain ⟨h, -, hc, hr⟩ := h
  refine Writing.ends_writer_bind ?_
  refine (ends_put writer hc h.file hr _ _).bind ?_ ?_
  swap
  · rintro stop s' ⟨he, hw, hf, hch⟩
    exact ⟨he, .ofFootprint h hw hf hch⟩
  rintro _ ⟨writer₁, w₁⟩ ⟨rfl, hcar₁, hch₁⟩
  dsimp only at hcar₁ hch₁
  refine Ends.bind (P := fun _ s' =>
      s'.1 = (writer.advance (Varint.encode data.length).length).advance data.length ∧
      s'.1.buffer.Carries writer.config.cipher
        (l.live.payloads.map encode ++ [Varint.encode data.length] ++ [data]) s'.2 ∧
      World.Changes writer.buffer.footprint w s'.2)
    (F := fun stop s' => (∃ e, stop = .error e) ∧ Unmoved q l c writer w s') ?_ ?_ ?_
  · refine Ends.catch_stop ((ends_put (writer.advance _) hc hcar₁ (hch₁.returns hr)
      _ _).mono ?_ fun _ _ hE => hE) ?_
    · rintro _ s' ⟨hw₂, hcar₂, hch₂⟩
      exact ⟨hw₂, hcar₂, hch₁.trans hch₂⟩
    · rintro stop ⟨writer₂, w₂⟩ ⟨⟨e, rfl⟩, hw₂, hcar₂, hch₂⟩
      dsimp only at hw₂ hcar₂ hch₂
      subst hw₂
      refine Writing.ends_writer_bind ?_
      refine Writing.ends_onWorld_bind (Buffer.ends_rewind_pieces hcar₂ h.file.pos) ?_
        fun _ _ hF => hF.elim
      rintro b' w₃ ⟨rfl, hcar₃, hch₃⟩
      refine ends_modify_bind (ends_throw ⟨⟨e, rfl⟩, ?_⟩)
      exact .ofFootprint h rfl hcar₃ ((hch₁.trans hch₂).trans hch₃)
  · rintro _ ⟨writer₂, w₂⟩ ⟨hw₂, hcar₂, hch₂⟩
    dsimp only at hw₂ hcar₂ hch₂
    subst hw₂
    have hdone := h.withRecord hd hch₂ (carries_withRecord hc hcar₂)
    have hmoves : World.Moves q writer.store l.base w w₂ :=
      .ofChanges h.sound (footprint_from h) hch₂
    refine ends_of_eq_ok (a := (writer.withRecord data).buffer.stop) (t := (writer.withRecord data,
      { w₂ with marks := w₂.marks.set writer.mark (writer.withRecord data).buffer.watermark })) ?_
      ⟨hdone.stop_eq, rfl, hdone, hmoves.trans (moves_marks hmoves.sound _ _ _)⟩
    rw [← withRecord_eq]
    rfl
  · exact fun _ _ hE => hE

end Writer

end RecordLog
