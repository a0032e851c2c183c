import Mathlib
import RecordLog.Proofs.Segments
import RecordLog.Proofs.UnitsOfWork

/-!
# A log in its folder

`Writer.Carries` ties a writer and its world to the log they hold: sealed segments in the index and
the folder, the live one in its file, the watermark at its end, and in the index a descriptor of
some of its first records. An operation touches only files of the live segment and later ones,
which `World.Moves` says, so the sealed segments stay what they are.
-/

namespace RecordLog

open Record Segment

/-- The names of the files of one segment. -/
inductive SegmentName (start : Nat) : String → Prop where
  | live : SegmentName start (bufferFileName start)
  | chunk : SegmentName start (chunkFileName start)
  | draft : SegmentName start (draftFileName start)

namespace SegmentName

theorem logName {start : Nat} {name : String} (h : SegmentName start name) : LogName name := by
  cases h with
  | live => exact .live start
  | chunk => exact .chunk start
  | draft => exact .draft start

theorem unique {s t : Nat} {name : String} (h : SegmentName s name) (h' : SegmentName t name) :
    s = t := by
  cases h with
  | live =>
    generalize hn : bufferFileName s = name at h'
    cases h' with
    | live => exact bufferFileName_injective hn
    | chunk => exact absurd hn.symm (chunkFileName_ne_bufferFileName t s)
    | draft => exact absurd hn.symm (draftFileName_ne_bufferFileName t s)
  | chunk =>
    generalize hn : chunkFileName s = name at h'
    cases h' with
    | live => exact absurd hn (chunkFileName_ne_bufferFileName s t)
    | chunk => exact chunkFileName_injective hn
    | draft => exact absurd hn.symm (draftFileName_ne_chunkFileName t s)
  | draft =>
    generalize hn : draftFileName s = name at h'
    cases h' with
    | live => exact absurd hn (draftFileName_ne_bufferFileName s t)
    | chunk => exact absurd hn (draftFileName_ne_chunkFileName s t)
    | draft => exact draftFileName_injective hn

end SegmentName

/-- A footprint among the files of the segments from a position on. -/
structure Footprint.From (F : Footprint) (q : Place) (start : Nat) (d : Disk) : Prop where
  places : ∀ p ∈ F.places, ∃ s name, start ≤ s ∧ SegmentName s name ∧ p = q ++ [name]
  files : ∀ id ∈ F.files, ∃ s name, start ≤ s ∧ SegmentName s name ∧
    d.names.get? (q ++ [name]) = some (.file id)

theorem Footprint.From.inLog {F : Footprint} {q : Place} {start : Nat} {d : Disk}
    (h : F.From q start d) : F.InLog q d where
  places p hp := by
    obtain ⟨s, name, -, hn, he⟩ := h.places p hp
    exact ⟨name, hn.logName, he⟩
  files id hid := by
    obtain ⟨s, name, -, hn, he⟩ := h.files id hid
    exact ⟨name, hn.logName, he⟩

/-- An index that was opened took over other values, or none. -/
def Store.Touched (id : StoreId) (ss ss' : List Store) : Prop :=
  ss' = ss ∨ ∃ s c, ss[id]? = some s ∧ ss' = ss.set id { s with medium := s.medium.put c }

theorem Store.Touched.trans {id : StoreId} {ss ss' ss'' : List Store} (h : Touched id ss ss')
    (h' : Touched id ss' ss'') : Touched id ss ss'' := by
  rcases h with rfl | ⟨s, c, hs, rfl⟩
  · exact h'
  · rcases h' with rfl | ⟨s', c', hs', rfl⟩
    · exact .inr ⟨s, c, hs, rfl⟩
    · obtain ⟨hlt, -⟩ := List.getElem?_eq_some_iff.1 hs
      simp only [List.getElem?_set_self hlt, Option.some.injEq] at hs'
      subst hs'
      refine .inr ⟨s, c', hs, ?_⟩
      rw [List.set_set]
      cases s.medium <;> rfl

/-- A world after an operation that touched no file of a segment before a position. -/
structure World.Moves (q : Place) (id : StoreId) (start : Nat) (w w' : World) : Prop where
  sound : w'.disk.Sound
  enter : ∀ path, w.disk.enter path = .ok q → w'.disk.enter path = .ok q
  same : ∀ s name, SegmentName s name → s < start → Disk.SameFile q name w.disk w'.disk
  others : ∀ name, ¬ LogName name →
    w'.disk.names.get? (q ++ [name]) = w.disk.names.get? (q ++ [name])
  stores : Store.Touched id w.stores w'.stores
  returns : w.Returns → w'.Returns
  calm : w.Calm → w'.Calm

namespace World.Moves

variable {q : Place} {id : StoreId} {start : Nat} {w w' w'' : World}

theorem refl (h : w.disk.Sound) : Moves q id start w w :=
  ⟨h, fun _ h => h, fun _ _ _ _ => .refl _ _ _, fun _ _ => rfl, .inl rfl, fun h => h, fun h => h⟩

theorem trans (h : Moves q id start w w') (h' : Moves q id start w' w'') :
    Moves q id start w w'' where
  sound := h'.sound
  enter path hp := h'.enter path (h.enter path hp)
  same s name hn hlt := (h.same s name hn hlt).trans (h'.same s name hn hlt)
  others name hn := (h'.others name hn).trans (h.others name hn)
  stores := h.stores.trans h'.stores
  returns := h'.returns ∘ h.returns
  calm := h'.calm ∘ h.calm

theorem mono {start' : Nat} (h : Moves q id start w w') (hle : start' ≤ start) :
    Moves q id start' w w' :=
  { h with same := fun s name hn hlt => h.same s name hn (hlt.trans_le hle) }

theorem ofChanges {F : Footprint} (hs : w.disk.Sound) (hF : F.From q start w.disk)
    (h : World.Changes F w w') : Moves q id start w w' where
  sound := h.disk.sound hs
  enter path hp := h.disk.enter hp
  same s name hn hlt := by
    refine h.disk.sameFile hs ?_ ?_
    · intro hm
      obtain ⟨t, name', hle, hn', he⟩ := hF.places _ hm
      have : name = name' := by simpa using he
      exact absurd hle (Nat.not_le.2 (hn.unique (this ▸ hn') ▸ hlt))
    · intro id hid hg
      obtain ⟨t, name', hle, hn', he⟩ := hF.files _ hid
      have : q ++ [name] = q ++ [name'] := hs.single _ _ id hg he
      have : name = name' := by simpa using this
      exact absurd hle (Nat.not_le.2 (hn.unique (this ▸ hn') ▸ hlt))
  others name hn := h.disk.names _ fun hp => by
    obtain ⟨name', hn', he⟩ := (hF.inLog).places _ hp
    have : name = name' := by simpa using he
    exact hn (this ▸ hn')
  stores := .inl h.stores
  returns := h.returns
  calm := h.calm

theorem ofIdle (hs : w.disk.Sound) (h : World.Idle w w') : Moves q id start w w' :=
  ofChanges (F := {}) hs ⟨by simp, by simp⟩ h.changes

theorem sameFile_of_commits {c : Catalog} (hs : w.disk.Sound) (h : Store.Commits q id c w w') {name : String}
    (hn : LogName name) : Disk.SameFile q name w.disk w'.disk := by
  obtain ⟨F, hp, hf, hch⟩ := h.disk
  refine hch.sameFile hs (by simp [hp]) ?_
  intro i hi hg
  exact (hf i hi).ne hs hn hg rfl

theorem ofCommits {c : Catalog} (hs : w.disk.Sound) (h : Store.Commits q id c w w')
    (hk : ∃ s, w.stores[id]? = some s) : Moves q id start w w' where
  sound := by
    obtain ⟨F, -, -, hch⟩ := h.disk
    exact hch.sound hs
  enter path hp := by
    obtain ⟨F, -, -, hch⟩ := h.disk
    exact hch.enter hp
  same s name hn _ := sameFile_of_commits hs h hn.logName
  others name _ := by
    obtain ⟨F, hp, -, hch⟩ := h.disk
    exact hch.names _ (by simp [hp])
  stores := by
    obtain ⟨s, hs⟩ := hk
    exact .inr ⟨s, c, hs, h.stores s hs⟩
  returns := h.returns
  calm := h.calm

end World.Moves

namespace Segment

variable {cfg : Config} {q : Place} {d d' : Disk}

theorem Sealed.frame_all {ps : List (Nat × Segment)} {es : List (Nat × Chunk)}
    (h : List.Forall₂ (Sealed cfg q d) ps es)
    (hf : ∀ p ∈ ps, Disk.SameFile q (chunkFileName p.1) d d' ∧
      Disk.SameFile q (bufferFileName p.1) d d') :
    List.Forall₂ (Sealed cfg q d') ps es := by
  induction h with
  | nil => exact .nil
  | cons hpe _ ih =>
    have hp := hf _ List.mem_cons_self
    exact .cons (hpe.frame hp.1 hp.2) (ih fun p hm => hf p (List.mem_cons_of_mem _ hm))

theorem lt_of_mem_placed {ss : List Segment} {es : List (Nat × Chunk)}
    (h : List.Forall₂ (Sealed cfg q d) (placed 0 ss) es) {p : Nat × Segment}
    (hp : p ∈ placed 0 ss) : p.1 < span ss := by
  obtain ⟨e, -, he⟩ : ∃ e ∈ es, Sealed cfg q d p e := by
    obtain ⟨i, hi, rfl⟩ := List.getElem_of_mem hp
    have hl := h.length_eq
    exact ⟨es[i], List.getElem_mem _, (List.forall₂_iff_get.1 h).2 i hi (hl ▸ hi)⟩
  have := he.size_pos
  have := (bounds_of_mem_placed hp).2
  omega

theorem Sealed.moves {id : StoreId} {ss : List Segment} {es : List (Nat × Chunk)} {w w' : World}
    (h : List.Forall₂ (Sealed cfg q w.disk) (placed 0 ss) es)
    (hm : World.Moves q id (span ss) w w') :
    List.Forall₂ (Sealed cfg q w'.disk) (placed 0 ss) es :=
  Sealed.frame_all h fun p hp =>
    ⟨hm.same p.1 _ .chunk (lt_of_mem_placed h hp), hm.same p.1 _ .live (lt_of_mem_placed h hp)⟩

end Segment

theorem PositionMap.put_of_forall_lt {ν : Type} {pos : Nat} {v : ν} {es : List (Nat × ν)}
    (h : ∀ e ∈ es, e.1 < pos) : PositionMap.put pos v es = es ++ [(pos, v)] := by
  induction es with
  | nil => rfl
  | cons e es ih =>
    have he := h e List.mem_cons_self
    have hes := ih fun x hx => h x (List.mem_cons_of_mem _ hx)
    rw [put, if_neg (Nat.not_lt.2 (Nat.le_of_lt he)), if_neg (Nat.ne_of_gt he), hes]
    rfl

/-- A writer, its index and its folder hold a log. -/
structure Writer.Carries (q : Place) (l : Log) (c : Catalog) (writer : Writer) (w : World) :
    Prop where
  home : w.disk.enter writer.config.path = .ok q
  sound : w.disk.Sound
  index : Store.Keeps q writer.store c w
  chunks : List.Forall₂ (Sealed writer.config q w.disk) (placed 0 l.sealed) c.chunks.entries
  state : writer.buffer.toBufferState = l.state writer.buffer.capacity
  file : writer.buffer.Carries writer.config.cipher (l.live.payloads.map encode) w
  writable : ∀ x ∈ l.live.payloads, Writable x
  linked : w.disk.names.get? (q ++ [bufferFileName l.base]) = some (.file writer.buffer.handle)
  reaches : writer.config.Reaches (bufferFileName l.base)
  mark : w.marks[writer.mark]? = some l.watermark
  kept : l.kept ≤ l.live.payloads.length
  described : c.buffer = some (l.cut.state writer.buffer.capacity)

namespace Writer.Carries

variable {q : Place} {l : Log} {c : Catalog} {writer : Writer} {w w' : World}

theorem start_eq (h : Carries q l c writer w) : writer.buffer.start = l.base := by rw [h.state]; rfl

theorem pos_eq (h : Carries q l c writer w) : writer.buffer.pos = l.live.size := by
  rw [h.state]; rfl

theorem records_eq (h : Carries q l c writer w) :
    writer.buffer.records = l.live.payloads.length := by
  rw [h.state]; rfl

theorem file_eq (h : Carries q l c writer w) : writer.buffer.file = bufferFileName l.base := by
  rw [h.state]; rfl

theorem salt_eq (h : Carries q l c writer w) : writer.buffer.salt = l.live.salt := by
  rw [h.state]; rfl

theorem stop_eq (h : Carries q l c writer w) : writer.buffer.stop = l.stop := by
  rw [BufferState.stop, h.start_eq, h.pos_eq, Log.stop]

theorem id_eq (h : Carries q l c writer w) : writer.buffer.id = ⟨l.base, l.live.salt⟩ := by
  rw [BufferState.id, h.start_eq, h.salt_eq]

theorem watermark_eq (h : Carries q l c writer w) : writer.buffer.watermark = l.watermark := by
  rw [BufferState.watermark, h.start_eq, h.pos_eq, h.salt_eq, Log.watermark]

theorem pos_eq_zero (h : Carries q l c writer w) :
    writer.buffer.pos = 0 ↔ l.live.payloads = [] := by
  rw [h.pos_eq, Segment.size, extent_eq_zero]

theorem frame (h : Carries q l c writer w) (hm : World.Moves q writer.store l.base w w')
    (hi : Store.Keeps q writer.store c w') (hmark : w'.marks = w.marks)
    (hf : writer.buffer.Carries writer.config.cipher (l.live.payloads.map encode) w')
    (hl : w'.disk.names.get? (q ++ [bufferFileName l.base]) =
      w.disk.names.get? (q ++ [bufferFileName l.base])) : Carries q l c writer w' :=
  { h with
    home := hm.enter _ h.home
    sound := hm.sound
    index := hi
    chunks := Sealed.moves h.chunks hm
    file := hf
    linked := hl.trans h.linked
    mark := hmark ▸ h.mark }

theorem changes {F : Footprint} (h : Carries q l c writer w) (hF : F.From q l.base w.disk)
    (hc : World.Changes F w w')
    (hf : writer.buffer.Carries writer.config.cipher (l.live.payloads.map encode) w')
    (hl : q ++ [bufferFileName l.base] ∉ F.places) : Carries q l c writer w' :=
  h.frame (World.Moves.ofChanges h.sound hF hc) (h.index.changes h.sound hF.inLog hc) hc.marks hf
    (hc.disk.names _ hl)

end Writer.Carries

end RecordLog
