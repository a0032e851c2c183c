import Mathlib
import RecordLog.Proofs.WriterSteps

/-!
# Sealing the live segment

Until the index takes over the new chunk, sealing only writes files that nobody reads: the chunk
and its draft, and the file of the next live segment. From then on it cannot fail any more, and the
file of the old live segment is removed if that can be done.
-/

namespace RecordLog

open Record Segment

variable {q : Place} {l : Log} {c : Catalog} {writer : Writer} {w w' : World}

def Catalog.seal (c : Catalog) (chunk : Chunk) (next : BufferState) : Catalog :=
  { c with chunks := c.chunks.insert chunk.start chunk, buffer := some next }

namespace Writer

/-- Where sealing writes before the index takes over. -/
def sealFootprint (q : Place) (l : Log) : Footprint :=
  { places := [q ++ [draftFileName l.base], q ++ [chunkFileName l.base],
      q ++ [bufferFileName l.stop]] }

theorem sealFootprint_from (q : Place) (l : Log) (d : Disk) :
    (sealFootprint q l).From q l.base d where
  places p hp := by
    simp only [sealFootprint, List.mem_cons, List.not_mem_nil, or_false] at hp
    rcases hp with rfl | rfl | rfl
    · exact ⟨_, _, Nat.le_refl _, .draft, rfl⟩
    · exact ⟨_, _, Nat.le_refl _, .chunk, rfl⟩
    · exact ⟨_, _, Nat.le_add_right _ _, .live, rfl⟩
  files id hid := by simp [sealFootprint] at hid

theorem base_lt_stop (hne : l.live.payloads ≠ []) : l.base < l.stop := by
  have := extent_pos hne
  simp only [Log.stop, Segment.size]
  omega

theorem live_not_mem_sealFootprint (hne : l.live.payloads ≠ []) :
    q ++ [bufferFileName l.base] ∉ (sealFootprint q l).places := by
  have h₁ : bufferFileName l.base ≠ draftFileName l.base :=
    (draftFileName_ne_bufferFileName _ _).symm
  have h₂ : bufferFileName l.base ≠ chunkFileName l.base :=
    (chunkFileName_ne_bufferFileName _ _).symm
  have h₃ : bufferFileName l.base ≠ bufferFileName l.stop := fun h =>
    Nat.ne_of_lt (base_lt_stop hne) (bufferFileName_injective h)
  simp [sealFootprint, h₁, h₂, h₃]

theorem Carries.file_of_changes (h : Carries q l c writer w) {F : Footprint}
    (hc : World.Changes F w w') (hp : q ++ [bufferFileName l.base] ∉ F.places)
    (hf : F.files = []) (hh : F.heads = []) :
    writer.buffer.Carries writer.config.cipher (l.live.payloads.map encode) w' := by
  have hsame := hc.disk.sameFile h.sound hp (by simp [hf])
  exact h.file.frame (hsame.content _ h.linked)
    (hc.heads _ h.file.head_lt (by simp [hh])) hc.disk.grown

theorem Unmoved.ofSealing (h : Carries q l c writer w) (hne : l.live.payloads ≠ [])
    (hc : World.Changes (sealFootprint q l) w w') : Unmoved q l c writer w (writer, w') where
  same := rfl
  carries := h.changes (sealFootprint_from q l w.disk) hc
    (h.file_of_changes hc (live_not_mem_sealFootprint hne) rfl rfl)
    (live_not_mem_sealFootprint hne)
  changes := ⟨_, sealFootprint_from q l w.disk, hc⟩

theorem Carries.sealed_live (h : Carries q l c writer w) (hne : l.live.payloads ≠ [])
    {bytes : Bytes} {d : Disk} (hreach : writer.config.Reaches (chunkFileName l.base))
    (hb : d.Holds (q ++ [chunkFileName l.base]) bytes)
    (hd : Chunk.Decodes writer.config bytes (contents l.live.payloads))
    (hleft : d.names.get? (q ++ [bufferFileName l.base]) = none ∨
      Disk.SameFile q (bufferFileName l.base) w.disk d) :
    Sealed writer.config q d (l.base, l.live) (l.base, l.chunk bytes.length) where
  key := rfl
  file := rfl
  start := rfl
  size := rfl
  records := rfl
  nonempty := hne
  writable := h.writable
  reaches := hreach
  liveReaches := h.reaches
  artifact := ⟨bytes, hb, rfl, hd⟩
  left := by
    refine hleft.imp_right fun hsame => ?_
    obtain ⟨x, hx, hw⟩ := h.file.written
    exact ⟨x.toBytes, hsame.holds ⟨_, x, h.linked, hx, rfl⟩, h.id_eq ▸ hw⟩

theorem Carries.entries_insert (h : Carries q l c writer w) (chunk : Chunk) :
    (c.chunks.insert l.base chunk).entries = c.chunks.entries ++ [(l.base, chunk)] := by
  refine PositionMap.put_of_forall_lt fun e he => ?_
  obtain ⟨i, hi, rfl⟩ := List.getElem_of_mem he
  have hl := h.chunks.length_eq
  have hs : Sealed writer.config q w.disk (placed 0 l.sealed)[i] c.chunks.entries[i] :=
    (List.forall₂_iff_get.1 h.chunks).2 i (hl ▸ hi) hi
  rw [hs.key]
  exact lt_of_mem_placed h.chunks (List.getElem_mem _)

theorem Carries.chunks_insert (h : Carries q l c writer w) {chunk : Chunk} {d : Disk}
    (hold : List.Forall₂ (Sealed writer.config q d) (placed 0 l.sealed) c.chunks.entries)
    (hnew : Sealed writer.config q d (l.base, l.live) (l.base, chunk)) (salt : UInt64) :
    List.Forall₂ (Sealed writer.config q d) (placed 0 (l.rotate salt).sealed)
      (c.chunks.insert l.base chunk).entries := by
  rw [h.entries_insert, Log.rotate, placed_append]
  refine List.rel_append hold (.cons ?_ .nil)
  simpa [Log.base] using hnew

theorem outcome_seal (c : Catalog) (chunk : Chunk) (s : BufferState) :
    Program.outcome? c (do
      Program.request (.addChunk chunk.start chunk)
      Program.request (.putBuffer s)) =
    some ((), c.seal chunk s) := rfl

theorem smooth_seal (c : Catalog) (chunk : Chunk) (s : BufferState) (inFile : Bool) :
    Program.Smooth inFile c (do
      Program.request (.addChunk chunk.start chunk)
      Program.request (.putBuffer s)) :=
  ⟨fun _ => trivial, fun _ _ _ => ⟨fun _ => trivial, fun _ _ _ => trivial⟩⟩

/-- The world once the index has taken over the chunk and the next segment. -/
structure Committed (q : Place) (l : Log) (c : Catalog) (writer : Writer) (w : World)
    (bytes : Bytes) (salt : UInt64) (next : Buffer) (w' : World) : Prop where
  moves : World.Moves q writer.store l.base w w'
  marks : w'.marks = w.marks
  index : Store.Keeps q writer.store (c.seal (l.chunk bytes.length) next.state) w'
  reaches : writer.config.Reaches (chunkFileName l.base)
  artifact : w'.disk.Holds (q ++ [chunkFileName l.base]) bytes
  decodes : Chunk.Decodes writer.config bytes (contents l.live.payloads)
  old : Disk.SameFile q (bufferFileName l.base) w.disk w'.disk
  state : next.toBufferState = .fresh l.stop writer.config.capacity salt
  nextReaches : writer.config.Reaches (bufferFileName l.stop)
  linked : w'.disk.names.get? (q ++ [bufferFileName l.stop]) = some (.file next.handle)
  file : next.Carries writer.config.cipher [] w'

structure Rotated (q : Place) (l : Log) (c : Catalog) (writer : Writer) (w : World)
    (s' : Writer × World) : Prop where
  carries : ∃ salt diskSize next, s'.1 = { writer with buffer := next } ∧
    next.capacity = writer.config.capacity ∧
    Carries q (l.rotate salt) (c.seal (l.chunk diskSize) next.state) s'.1 s'.2
  moves : World.Moves q writer.store l.base w s'.2

theorem footprint_live (q : Place) (l : Log) (d : Disk) :
    ({ places := [q ++ [bufferFileName l.base]] } : Footprint).From q l.base d where
  places p hp := by
    simp only [List.mem_singleton] at hp
    exact ⟨_, _, Nat.le_refl _, .live, hp⟩
  files id hid := by simp at hid

theorem Committed.rotated {bytes : Bytes} {salt : UInt64} {next : Buffer}
    (hk : Committed q l c writer w bytes salt next w') (h : Carries q l c writer w)
    (hne : l.live.payloads ≠ []) {w'' : World}
    (hc : World.Changes { places := [q ++ [bufferFileName l.base]] }
      { w' with marks := w'.marks.set writer.mark next.watermark } w'')
    (hheads : w''.heads = w'.heads) (hfiles : w''.disk.files = w'.disk.files)
    (hgone : w''.disk.names.get? (q ++ [bufferFileName l.base]) =
        w'.disk.names.get? (q ++ [bufferFileName l.base]) ∨
      w''.disk.names.get? (q ++ [bufferFileName l.base]) = none) :
    Rotated q l c writer w ({ writer with buffer := next }, w'') := by
  have hm' := hk.moves.trans (moves_marks hk.moves.sound _ _ (w'.marks.set writer.mark next.watermark))
  have hF := footprint_live q l w'.disk
  have hm := hm'.trans (World.Moves.ofChanges hm'.sound hF hc)
  have hcontent (id : FileId) : w''.disk.content id = w'.disk.content id := by
    rw [Disk.content, Disk.content, hfiles]
  have hstop : bufferFileName l.stop ≠ bufferFileName l.base := fun he =>
    Nat.ne_of_gt (base_lt_stop hne) (bufferFileName_injective he)
  have hlinked : w''.disk.names.get? (q ++ [bufferFileName l.stop]) = some (.file next.handle) :=
    (hc.disk.names _ (by simp [hstop])).trans hk.linked
  have hartifact : w''.disk.Holds (q ++ [chunkFileName l.base]) bytes :=
    hc.disk.holds hm'.sound (by simp [chunkFileName_ne_bufferFileName]) (by simp) hk.artifact
  have hleft : w''.disk.names.get? (q ++ [bufferFileName l.base]) = none ∨
      Disk.SameFile q (bufferFileName l.base) w.disk w''.disk := by
    rcases hgone with he | hn
    · exact .inr (hk.old.trans ⟨he, fun id _ => hcontent id⟩)
    · exact .inl hn
  have hsealed := h.sealed_live hne hk.reaches hartifact hk.decodes hleft
  have hstate : next.toBufferState = (l.rotate salt).state next.capacity := by
    rw [hk.state, Log.state, Log.base_rotate]
    rfl
  have hmark : next.watermark = (l.rotate salt).watermark := by
    rw [hstate]
    rfl
  refine ⟨⟨salt, bytes.length, next, rfl, congrArg BufferState.capacity hk.state, ?_⟩, hm⟩
  refine ⟨hm.enter _ h.home, hm.sound, ?_,
    h.chunks_insert (Sealed.moves h.chunks hm) hsealed salt, hstate, ?_, ?_, ?_, ?_, ?_,
    Nat.zero_le _, congrArg some hstate⟩
  · exact Store.Keeps.changes (w := { w' with marks := w'.marks.set writer.mark next.watermark })
      hk.index hm'.sound hF.inLog hc
  · exact hk.file.frame (hcontent _) (by rw [hheads]) (by rw [hfiles])
  · intro x hx
    simp [Log.rotate] at hx
  · rw [Log.base_rotate]
    exact hlinked
  · rw [Log.base_rotate]
    exact hk.nextReaches
  · have hlen : writer.mark < w'.marks.length := by
      obtain ⟨hlt, -⟩ := List.getElem?_eq_some_iff.1 h.mark
      rwa [hk.marks]
    rw [hc.marks, ← hmark]
    exact List.getElem?_set_self hlen

theorem changes_opened {salt : UInt64} {next : Buffer} {w₁ w₂ : World}
    (hch : World.Changes (sealFootprint q l) w w₁)
    (ho : Buffer.Opened writer.config q (.fresh l.stop writer.config.capacity salt) w₁ next w₂) :
    World.Changes (sealFootprint q l) w w₂ :=
  hch.trans (ho.changes.mono ⟨by simp [sealFootprint, BufferState.fresh], by simp, by simp⟩)

theorem Committed.ofCommits {bytes : Bytes} {salt : UInt64} {next : Buffer} {w₁ w₂ w₃ : World}
    (h : Carries q l c writer w) (hne : l.live.payloads ≠ [])
    (hch : World.Changes (sealFootprint q l) w w₁)
    (hreach : writer.config.Reaches (chunkFileName l.base))
    (hb : w₁.disk.Holds (q ++ [chunkFileName l.base]) bytes)
    (hd : Chunk.Decodes writer.config bytes (contents l.live.payloads))
    (ho : Buffer.Opened writer.config q (.fresh l.stop writer.config.capacity salt) w₁ next w₂)
    (hcom : Store.Commits q writer.store (c.seal (l.chunk bytes.length) next.state) w₂ w₃) :
    Committed q l c writer w bytes salt next w₃ := by
  have hch₂ := changes_opened hch ho
  have hk := (Unmoved.ofSealing h hne hch₂).carries
  obtain ⟨s, hs, -⟩ := hk.index
  obtain ⟨F, -, -, hF⟩ := hcom.disk
  have hchunk := World.Moves.sameFile_of_commits hk.sound hcom (.chunk l.base)
  have hold := World.Moves.sameFile_of_commits hk.sound hcom (.live l.base)
  have hnext := World.Moves.sameFile_of_commits hk.sound hcom (.live l.stop)
  have hsame : Disk.SameFile q (bufferFileName l.base) w.disk w₂.disk :=
    hch₂.disk.sameFile h.sound (live_not_mem_sealFootprint hne) (by simp [sealFootprint])
  have hb₂ : w₂.disk.Holds (q ++ [chunkFileName l.base]) bytes :=
    ho.changes.disk.holds (hch.disk.sound h.sound)
      (by simp [BufferState.fresh, chunkFileName_ne_bufferFileName]) (by simp) hb
  exact {
    moves := (World.Moves.ofChanges h.sound (sealFootprint_from q l _) hch₂).trans
      (.ofCommits hk.sound hcom ⟨s, hs⟩)
    marks := hcom.marks.trans hch₂.marks
    index := hcom.keeps
    reaches := hreach
    artifact := hchunk.holds hb₂
    decodes := hd
    old := hsame.trans hold
    state := ho.state
    nextReaches := ho.reaches
    linked := hnext.names.trans ho.linked
    file := (ho.carries_nil hk.sound rfl).frame (hnext.content _ ho.linked) (by rw [hcom.heads])
      hF.grown }

/-- Sealing makes a chunk of the live segment or leaves the log as it was. -/
theorem ends_rotate (h : Ready q l c writer w) (hne : l.live.payloads ≠ []) :
    Ends rotate (writer, w) (fun _ s' => Rotated q l c writer w s')
      fun stop s' => (∃ e, stop = .error e) ∧ Unmoved q l c writer w s' := by
  obtain ⟨h, hz, hc, hr⟩ := h
  refine Writing.ends_writer_bind ?_
  refine Writing.ends_onWorld_bind (Buffer.ends_flush h.file) ?_ fun _ _ hF => hF.elim
  rintro _ w' hw
  rw [hw]
  have hfoot : (Chunk.footprint q writer.buffer.start).Le (sealFootprint q l) := by
    rw [h.start_eq]
    exact ⟨by simp [Chunk.footprint, sealFootprint], by simp [Chunk.footprint],
      by simp [Chunk.footprint]⟩
  refine Writing.ends_onWorld_bind (Buffer.ends_sealed hz hc h.file h.sound h.home hr) ?_
    fun _ _ hE => ⟨hE.1, .ofSealing h hne (hE.2.mono hfoot)⟩
  rintro chunk w₁ ⟨hch, hreach, bytes, rfl, hb, hd⟩
  have hch₁ := hch.mono hfoot
  have hchunk : (⟨chunkFileName writer.buffer.start, writer.buffer.start, writer.buffer.pos,
      bytes.length, writer.buffer.records⟩ : Chunk) = l.chunk bytes.length := by
    rw [h.start_eq, h.pos_eq, h.records_eq, Log.chunk]
  rw [hchunk]
  rw [h.start_eq] at hreach hb
  refine Writing.ends_onWorld_bind (Buffer.ends_create (hch₁.disk.sound h.sound)
    (hch₁.disk.enter h.home) _) ?_ fun _ _ hE =>
      ⟨hE.2 (hch₁.returns hr), .ofSealing h hne (hch₁.trans hE.1.changes)⟩
  rintro next w₂ ⟨salt, ho⟩
  have hch₂ : World.Changes (sealFootprint q l) w w₂ := changes_opened hch₁ ho
  have hk₂ := (Unmoved.ofSealing h hne hch₂).carries
  refine Writing.ends_onWorld_bind (Store.ends_update hk₂.sound hk₂.index (smooth_seal _ _ _)) ?_
    fun _ _ hE => ⟨hE.2 (hch₂.returns hr), .ofSealing h hne (hch₂.trans hE.1.changes)⟩
  rintro _ w₃ ⟨c', hout, hcom⟩
  rw [outcome_seal] at hout
  cases hout
  have hk := Committed.ofCommits h hne hch₁ hreach hb hd ho hcom
  refine ends_modify_bind (ends_modify_bind ?_)
  rw [h.file_eq]
  refine Ends.onWorld ((Op.ends_discard
    (w := { w₃ with marks := w₃.marks.set writer.mark next.watermark })
    (F := { places := [q ++ [bufferFileName l.base]] }) (hk.moves.enter _ h.home)
    (LogName.live l.base).plain (by simp) (hk.moves.returns hr)).mono ?_ fun _ _ hF => hF.elim)
  rintro _ w₄ ⟨hc₄, hheads, hfiles, hgone⟩
  exact hk.rotated h hne hc₄ hheads hfiles hgone

end Writer

end RecordLog
