import Mathlib
import RecordLog.Proofs.OpenedSegment
import RecordLog.Proofs.ChunkFile

/-!
# Where operations on segments write

Whatever a compressor or a cipher returns, and whatever a file holds, the operations on a segment
write to its own files alone, and they stop with an error if they stop at all. `Op.Confined` says so
for one footprint. Nothing is asked of the bytes, so nothing is learned about them.
-/

namespace RecordLog

open World

namespace Op

variable {α β : Type} {F G : Footprint} {op : Op α} {w : World} {Q : α → World → Prop}

/-- An operation changes nothing outside a footprint, and a stop is an error, as long as every call
returns. -/
def Confined (F : Footprint) (op : Op α) (w : World) (Q : α → World → Prop) : Prop :=
  w.disk.Sound → w.Returns →
    Ends op w (fun a w' => Changes F w w' ∧ Q a w') fun stop w' =>
      (∃ e, stop = .error e) ∧ Changes F w w'

theorem Confined.mono {Q' : α → World → Prop} (h : Confined F op w Q) (hF : F.Le G)
    (hQ : ∀ a w', Changes F w w' → Q a w' → Q' a w') : Confined G op w Q' := by
  intro hs hr
  refine (h hs hr).mono ?_ ?_
  · rintro a w' ⟨hc, ha⟩
    exact ⟨hc.mono hF, hQ a w' hc ha⟩
  · rintro stop w' ⟨he, hc⟩
    exact ⟨he, hc.mono hF⟩

theorem Confined.bind {f : α → Op β} {R : β → World → Prop} (h : Confined F op w Q)
    (hf : ∀ a w', Changes F w w' → Q a w' → Confined F (f a) w' R) :
    Confined F (op >>= f) w R := by
  intro hs hr
  refine (h hs hr).bind ?_ fun _ _ hE => hE
  rintro a w₁ ⟨h₁, ha⟩
  refine (hf a w₁ h₁ ha (h₁.disk.sound hs) (h₁.returns hr)).mono ?_ ?_
  · rintro b w₂ ⟨h₂, hb⟩
    exact ⟨h₁.trans h₂, hb⟩
  · rintro stop w₂ ⟨he, h₂⟩
    exact ⟨he, h₁.trans h₂⟩

theorem confined_pure {a : α} (h : Q a w) : Confined F (pure a) w Q :=
  fun _ _ => ends_pure ⟨(Idle.refl w).changes, h⟩

theorem confined_fail (e : Error) : Confined F (fail e : Op α) w Q :=
  fun _ _ => ends_throw ⟨⟨e, rfl⟩, (Idle.refl w).changes⟩

theorem confined_of_eq {f : α → Op β} {R : β → World → Prop} {a : α} {t : World}
    (h : op w = .ok a t) (hc : Changes F w t) (hf : Confined F (f a) t R) :
    Confined F (op >>= f) w R := by
  apply Confined.bind (Q := fun b w₁ => b = a ∧ w₁ = t)
  · exact fun _ _ => ends_of_eq_ok h ⟨hc, rfl, rfl⟩
  · rintro _ _ _ ⟨rfl, rfl⟩
    exact hf

theorem confined_idle {E : Stop → World → Prop} (h : Ends op w (fun a w' => Idle w w' ∧ Q a w') E)
    (hE : ∀ stop w', E stop w' → Idle w w' ∧ Failed w stop) : Confined F op w Q := by
  intro _ hr
  refine h.mono ?_ ?_
  · rintro a w' ⟨hi, ha⟩
    exact ⟨hi.changes, ha⟩
  · intro stop w' hx
    obtain ⟨hi, hf⟩ := hE stop w' hx
    exact ⟨hf hr, hi.changes⟩

theorem confined_passDisk (h : Hook) (operation : String) :
    Confined F (passDisk h operation) w fun _ _ => True :=
  confined_idle ((ends_passDisk h operation w).mono (fun _ _ hi => ⟨hi, trivial⟩) fun _ _ hE => hE)
    fun _ _ hE => ⟨hE.1, hE.2.1⟩

theorem confined_lookAtDisk (operation : String) (f : Disk → Except IoCause α) :
    Confined F (lookAtDisk operation f) w fun _ _ => True := by
  intro _ _
  refine (ends_lookAtDisk operation f w).mono ?_ ?_
  · rintro _ _ ⟨rfl, -⟩
    exact ⟨(Idle.refl _).changes, trivial⟩
  · rintro _ _ ⟨rfl, _, -, he⟩
    exact ⟨⟨_, he⟩, (Idle.refl _).changes⟩

theorem changes_heads {head : HeadId} (h : head ∈ F.heads) (offset : Nat) :
    Changes F w { w with heads := w.heads.set head offset } where
  disk := Disk.Changes.refl F w.disk
  stores := rfl
  marks := rfl
  heads i _ hi := by
    have : head ≠ i := fun e => hi (e ▸ h)
    simp [this]
  headsGrown := by simp
  returns h := h
  calm h := h

theorem confined_seek {head : HeadId} (h : head ∈ F.heads) (offset : Nat) :
    Confined F (seek head offset) w fun _ _ => True :=
  fun _ _ => ends_modify ⟨changes_heads h offset, trivial⟩

theorem confined_readFile {head : HeadId} (h : head ∈ F.heads) (id : FileId) (count : Nat) :
    Confined F (readFile id head count) w fun _ _ => True := by
  refine confined_of_eq (a := w.heads.getD head 0) (t := w) rfl (Idle.refl w).changes ?_
  refine confined_of_eq (a := w) (t := w) rfl (Idle.refl w).changes ?_
  exact (confined_seek h _).bind fun _ _ _ _ => confined_pure trivial

theorem changes_write {id : FileId} (hs : w.disk.Sound) (hid : id ∈ F.files) {offset : Nat}
    {data : Bytes} {d : Disk} (h : w.disk.write id offset data = .ok d) : w.disk.Changes F d := by
  unfold Disk.write at h
  cases hx : w.disk.content id with
  | full => exact absurd hx (hs.ordinary id)
  | bytes x =>
    simp only [hx, Content.write, Except.map, Except.ok.injEq] at h
    exact h ▸ Disk.Changes.setContent (by simp) (.inl hid)
  | tables t damage =>
    simp only [hx, Content.write, Except.map, Except.ok.injEq] at h
    exact h ▸ Disk.Changes.setContent (by simp) (.inl hid)

theorem changes_setSize {id : FileId} (hs : w.disk.Sound)
    (hid : id ∈ F.files ∨ ∃ p ∈ F.places, w.disk.names.get? p = some (.file id)) {size : Nat}
    {d : Disk} (h : w.disk.setSize id size = .ok d) : w.disk.Changes F d := by
  unfold Disk.setSize at h
  cases hx : w.disk.content id with
  | full => exact absurd hx (hs.ordinary id)
  | bytes x =>
    simp only [hx, Content.setSize, Except.map, Except.ok.injEq] at h
    exact h ▸ Disk.Changes.setContent (by simp) hid
  | tables t damage =>
    simp only [hx, Content.setSize, Except.map, Except.ok.injEq] at h
    refine h ▸ Disk.Changes.setContent ?_ hid
    split <;> simp

theorem confined_putBytes {id : FileId} {head : HeadId} (hid : id ∈ F.files) (hh : head ∈ F.heads)
    (operation : String) (data : Bytes) :
    Confined F (putBytes operation id head data) w fun _ _ => True := by
  refine confined_of_eq (a := w.heads.getD head 0) (t := w) rfl (Idle.refl w).changes ?_
  apply Confined.bind (Q := fun _ _ => True)
  · intro hs _
    refine (ends_changeDisk operation _ w).mono ?_ ?_
    · rintro _ _ ⟨d, hd, rfl⟩
      exact ⟨Changes.ofDisk (changes_write hs hid hd), trivial⟩
    · rintro _ _ ⟨rfl, _, -, he⟩
      exact ⟨⟨_, he⟩, (Idle.refl _).changes⟩
  · intro _ w₁ _ _
    exact confined_seek hh _

theorem confined_writeFile {id : FileId} {head : HeadId} (hid : id ∈ F.files) (hh : head ∈ F.heads)
    (operation : String) (data : Bytes) :
    Confined F (writeFile operation id head data) w fun _ _ => True := by
  intro hs hr
  refine (ends_strike .write w).bind ?_ fun _ _ hF => hF.elim
  rintro (_ | f) w₁ ⟨hi, hf⟩
  · refine (confined_putBytes hid hh operation data (hi.disk ▸ hs) (hi.returns hr)).mono ?_ ?_
    · intro _ _ hc
      exact ⟨hi.changes.trans hc.1, trivial⟩
    · intro _ _ hc
      exact ⟨hc.1, hi.changes.trans hc.2⟩
  · have hput := confined_putBytes (F := F) hid hh operation (data.take f.kept) (hi.disk ▸ hs)
      (hi.returns hr)
    refine hput.bind ?_ ?_
    · intro _ w₂ hc
      refine Ends.bind (P := fun _ _ => False) (ends_struck fun stop hstop => ?_)
        (fun _ _ hF => hF.elim) fun _ _ h => h
      exact ⟨⟨_, hstop ((hf f rfl).2 hr)⟩, hi.changes.trans hc.1⟩
    · intro _ _ hc
      exact ⟨hc.1, hi.changes.trans hc.2⟩

end Op

open Op

namespace Buffer

variable {cfg : Config} {q : Place} {w : World} {F : Footprint}

theorem mem_files_footprint (b : Buffer) : b.handle ∈ b.footprint.files := by simp [footprint]

theorem mem_heads_footprint (b : Buffer) : b.head ∈ b.footprint.heads := by simp [footprint]

theorem confined_rewind (b : Buffer) (pos : Nat) :
    Confined b.footprint (b.rewind pos) w fun b' _ => b' = { b with pos := min pos b.pos } := by
  intro hs hr
  refine ends_modify_bind (ends_pure ⟨?_, rfl⟩)
  cases hd : w.disk.setSize b.handle (min pos b.pos) with
  | error cause => exact (Idle.refl w).changes
  | ok d =>
    have hdisk : Changes b.footprint w { w with disk := d } :=
      Changes.ofDisk (changes_setSize hs (.inl b.mem_files_footprint) hd)
    exact hdisk.trans (changes_heads b.mem_heads_footprint (min pos b.pos))

theorem confined_append (b : Buffer) (operation : String) (data : Bytes) :
    Confined b.footprint (b.append cfg operation data) w fun b' _ =>
      b' = { b with pos := b.pos + data.length } := by
  have hencode := ends_encodeAt cfg.cipher b.id b.pos data w
  apply Confined.bind (Q := fun _ _ => True)
  · exact confined_idle (hencode.mono (fun _ _ h => ⟨h.1, trivial⟩) fun _ _ h => h) fun _ _ h => h
  · intro encoded w₁ _ _
    apply Confined.bind (Q := fun _ _ => True)
    · intro hs hr
      refine Ends.catch_stop (confined_writeFile b.mem_files_footprint b.mem_heads_footprint
        operation encoded hs hr) ?_
      rintro _ w₂ ⟨⟨e, rfl⟩, h₂⟩
      refine (confined_rewind b b.pos (h₂.disk.sound hs) (h₂.returns hr)).bind ?_ ?_
      · rintro _ w₃ ⟨h₃, _⟩
        exact ends_throw ⟨⟨e, rfl⟩, h₂.trans h₃⟩
      · rintro _ _ ⟨he, h₃⟩
        exact ⟨he, h₂.trans h₃⟩
    · intro _ w₂ _ _
      refine (confined_idle (Q := fun _ _ => True) ((ends_trace _ w₂).mono
        (fun _ _ h => ⟨h, trivial⟩) fun _ _ h => h) fun _ _ hF => hF.elim).bind ?_
      intro _ _ _ _
      exact confined_pure rfl

theorem confined_flush (b : Buffer) : Confined F (b.flush cfg) w fun _ _ => True := by
  unfold flush
  split
  · exact confined_lookAtDisk _ _
  · exact confined_pure trivial

theorem confined_content (b : Buffer) : Confined b.footprint (b.content cfg) w fun _ _ => True := by
  refine (confined_seek b.mem_heads_footprint _).bind fun _ w₁ _ _ => ?_
  refine (confined_readFile b.mem_heads_footprint _ _).bind fun bytes w₂ _ _ => ?_
  refine (confined_seek b.mem_heads_footprint _).bind fun _ w₃ _ _ => ?_
  split
  · exact confined_idle ((ends_decodeAt cfg.cipher b.id 0 bytes w₃).mono
      (fun _ _ h => ⟨h.1, trivial⟩) fun _ _ h => h) fun _ _ h => h
  · exact confined_fail _

def sealing (q : Place) (b : Buffer) : Footprint :=
  { b.footprint with places := (Chunk.footprint q b.start).places }

/-- Sealing makes a chunk of as many bytes and records as the segment counts. -/
theorem confined_sealed (b : Buffer) (hq : w.disk.enter cfg.path = .ok q) :
    Confined (b.sealing q) (b.sealed cfg) w fun chunk _ =>
      ∃ diskSize, chunk = ⟨chunkFileName b.start, b.start, b.pos, diskSize, b.records⟩ := by
  have hown : b.footprint.Le (b.sealing q) := ⟨by simp [footprint], fun _ h => h, fun _ h => h⟩
  have hchunk : (Chunk.footprint q b.start).Le (b.sealing q) :=
    ⟨fun _ h => h, by simp [Chunk.footprint], by simp [Chunk.footprint]⟩
  refine (b.confined_content.mono hown fun _ _ _ h => h).bind fun content w₁ h₁ _ => ?_
  apply Confined.bind (Q := fun _ _ => True)
  · exact confined_idle ((ends_compress cfg.compressor content w₁).mono
      (fun _ _ h => ⟨h.1, trivial⟩) fun _ _ h => h) fun _ _ h => h
  · intro compressed w₂ h₂ _
    apply Confined.bind (Q := fun _ _ => True)
    · exact confined_idle ((ends_encrypt cfg.cipher compressed w₂).mono
        (fun _ _ h => ⟨h.1, trivial⟩) fun _ _ h => h) fun _ _ h => h
    · intro encrypted w₃ h₃ _
      have hq₃ : w₃.disk.enter cfg.path = .ok q := ((h₁.trans h₂).trans h₃).disk.enter hq
      apply Confined.bind (Q := fun _ _ => True)
      · intro hs hr
        refine (Chunk.ends_persist hs hq₃ hr b.start encrypted).mono ?_ ?_
        · rintro _ _ ⟨-, -, -, hc⟩
          exact ⟨hc.mono hchunk, trivial⟩
        · rintro _ _ ⟨he, hc⟩
          exact ⟨he, hc.mono hchunk⟩
      · intro diskSize _ _ _
        exact confined_pure ⟨diskSize, rfl⟩

theorem confined_openOrCreate {name : String} (hq : w.disk.enter cfg.path = .ok q)
    (hn : Path.Plain name) (operation : String) :
    Confined { places := [q ++ [name]] } (Op.onDisk operation (·.openOrCreate (cfg.locate name))) w
      fun id w' => w'.disk.names.get? (q ++ [name]) = some (.file id) := by
  intro _ _
  refine (ends_onDisk _ _ w).mono ?_ ?_
  · rintro id _ ⟨d, hopen, rfl⟩
    exact ⟨Changes.ofDisk (Disk.changes_openOrCreate hq hn hopen (by simp)),
      Disk.names_openOrCreate hq hn hopen⟩
  · rintro _ _ ⟨rfl, _, -, he⟩
    exact ⟨⟨_, he⟩, (Idle.refl _).changes⟩

theorem confined_setSize {p : Place} {id : FileId} (hl : w.disk.names.get? p = some (.file id))
    (operation : String) (size : Nat) :
    Confined { places := [p] } (Op.changeDisk operation (·.setSize id size)) w
      fun _ w' => w'.disk.names.get? p = some (.file id) := by
  intro hs _
  refine (ends_changeDisk _ _ w).mono ?_ ?_
  · rintro _ _ ⟨d, hd, rfl⟩
    refine ⟨Changes.ofDisk (changes_setSize hs (.inr ⟨p, by simp, hl⟩) hd), ?_⟩
    unfold Disk.setSize at hd
    cases hc : (w.disk.content id).setSize size with
    | error e => simp [hc, Except.map] at hd
    | ok content =>
      simp only [hc, Except.map, Except.ok.injEq] at hd
      rw [← hd]
      exact hl
  · rintro _ _ ⟨rfl, _, -, he⟩
    exact ⟨⟨_, he⟩, (Idle.refl _).changes⟩

/-- Opening a segment finds or makes its file, whatever is in it. -/
theorem confined_resume {s : BufferState} (hq : w.disk.enter cfg.path = .ok q)
    (hn : Path.Plain s.file) :
    Confined { places := [q ++ [s.file]] } (resume cfg s) w fun b w' =>
      b.toBufferState = s ∧ w'.disk.names.get? (q ++ [s.file]) = some (.file b.handle) := by
  refine (confined_passDisk _ _).bind fun _ w₁ h₁ _ => ?_
  refine (confined_openOrCreate (h₁.disk.enter hq) hn _).bind fun id w₂ _ hl₂ => ?_
  refine confined_of_eq (a := w₂) (t := w₂) rfl (Idle.refl w₂).changes ?_
  have hopened (w₃ : World) (hl : w₃.disk.names.get? (q ++ [s.file]) = some (.file id)) :
      Confined { places := [q ++ [s.file]] }
        (do pure (⟨s, id, ← Op.addHead s.pos⟩ : Buffer)) w₃ fun b w' =>
        b.toBufferState = s ∧ w'.disk.names.get? (q ++ [s.file]) = some (.file b.handle) :=
    confined_of_eq rfl (changes_addHead s.pos w₃) (confined_pure ⟨rfl, hl⟩)
  dsimp only
  split
  · exact (confined_fail (Q := fun _ _ => False) _).bind fun _ _ _ hF => hF.elim
  · split
    · exact (confined_setSize hl₂ _ _).bind fun _ w₃ _ hl₃ => hopened w₃ hl₃
    · exact hopened w₂ hl₂

theorem confined_create (hq : w.disk.enter cfg.path = .ok q) (start : Nat) :
    Confined { places := [q ++ [bufferFileName start]] } (create cfg start) w fun b w' =>
      (∃ salt, b.toBufferState = .fresh start cfg.capacity salt) ∧
        w'.disk.names.get? (q ++ [bufferFileName start]) = some (.file b.handle) := by
  have hdrawn : Idle w { w with saltsDrawn := w.saltsDrawn + 1 } := ⟨rfl, rfl, rfl, rfl, id, id⟩
  have hresume := confined_resume (w := { w with saltsDrawn := w.saltsDrawn + 1 })
    (s := .fresh start cfg.capacity (w.salts w.saltsDrawn)) hq (LogName.live start).plain
  refine confined_of_eq rfl hdrawn.changes (hresume.mono ⟨fun _ h => h, fun _ h => h, fun _ h => h⟩ ?_)
  rintro b _ _ ⟨hstate, hlinked⟩
  exact ⟨⟨_, hstate⟩, hlinked⟩

end Buffer

end RecordLog
