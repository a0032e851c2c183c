import Mathlib
import RecordLog.Proofs.Books
import RecordLog.Proofs.Confinement

/-!
# How a writer keeps the books

`Writer.Books` ties a writer and its world to what the index says of the log: the live segment is
the one that is described, and its file and its watermark are there. Each operation makes one of the
postings or reports an error, whatever the compressor and the cipher return.
-/

namespace RecordLog

open Record

variable {α : Type} {q : Place} {c : Catalog} {writer : Writer} {w w' : World} {data : Bytes}

/-- A writer, its index and its folder agree on where the log is. -/
structure Writer.Books (q : Place) (c : Catalog) (writer : Writer) (w : World) : Prop where
  home : w.disk.enter writer.config.path = .ok q
  sound : w.disk.Sound
  index : Store.Keeps q writer.store c w
  describes : c.Describes writer.buffer.toBufferState
  linked : w.disk.names.get? (q ++ [bufferFileName writer.buffer.start]) =
    some (.file writer.buffer.handle)
  mark : w.marks[writer.mark]? = some writer.buffer.watermark

namespace Writer

namespace Books

theorem changes {F : Footprint} (h : Books q c writer w) (hF : F.InLog q w.disk)
    (hl : q ++ [bufferFileName writer.buffer.start] ∉ F.places) (hc : World.Changes F w w') :
    Books q c writer w' where
  home := hc.disk.enter h.home
  sound := hc.disk.sound h.sound
  index := h.index.changes h.sound hF hc
  describes := h.describes
  linked := (hc.disk.names _ hl).trans h.linked
  mark := hc.marks ▸ h.mark

theorem idle (h : Books q c writer w) (hi : World.Idle w w') : Books q c writer w' :=
  h.changes (F := {}) ⟨by simp, by simp⟩ (by simp) hi.changes

theorem under {k : Circumstances} (h : Books q c writer w) :
    Books q c writer (w.under writer.store k) :=
  { h with index := h.index.under }

theorem inLog_footprint (h : Books q c writer w) : writer.buffer.footprint.InLog q w.disk where
  places p hp := by simp [Buffer.footprint] at hp
  files id hid := by
    simp only [Buffer.footprint, List.mem_singleton] at hid
    exact ⟨_, LogName.live writer.buffer.start, hid ▸ h.linked⟩

theorem ofFootprint (h : Books q c writer w) (hc : World.Changes writer.buffer.footprint w w') :
    Books q c writer w' :=
  h.changes h.inLog_footprint (by simp [Buffer.footprint]) hc

end Books

/-- The same writer later on, with the books as they are then. -/
structure Proceeds (q : Place) (s : Writer × World) (c' : Catalog) (s' : Writer × World) : Prop where
  books : Books q c' s'.1 s'.2
  config : s'.1.config = s.1.config
  store : s'.1.store = s.1.store
  stores : Store.Touched s.1.store s.2.stores s'.2.stores
  returns : s.2.Returns → s'.2.Returns

namespace Proceeds

variable {s s' s'' : Writer × World} {c' c'' : Catalog}

theorem refl (h : Books q c s.1 s.2) : Proceeds q s c s :=
  ⟨h, rfl, rfl, .inl rfl, fun h => h⟩

theorem trans (h : Proceeds q s c' s') (h' : Proceeds q s' c'' s'') : Proceeds q s c'' s'' where
  books := h'.books
  config := h'.config.trans h.config
  store := h'.store.trans h.store
  stores := h.stores.trans (h.store ▸ h'.stores)
  returns := h'.returns ∘ h.returns

theorem ofChanges {F : Footprint} (hb : Books q c' writer w') (hc : World.Changes F w w') :
    Proceeds q (writer, w) c' (writer, w') :=
  ⟨hb, rfl, rfl, .inl hc.stores, hc.returns⟩

end Proceeds

section record

theorem ends_put_any (hs : w.disk.Sound) (hr : w.Returns) (writer : Writer) (operation : String)
    (data : Bytes) :
    Ends (put operation data) (writer, w)
      (fun _ s' => s'.1 = writer.advance data.length ∧
        World.Changes writer.buffer.footprint w s'.2 ∧
        s'.2.pieces = w.pieces ++ [⟨writer.buffer.id, writer.buffer.pos, data⟩])
      fun stop s' => (∃ e, stop = .error e) ∧ s'.1 = writer ∧
        World.Changes writer.buffer.footprint w s'.2 ∧
        s'.2.pieces = w.pieces ++ [⟨writer.buffer.id, writer.buffer.pos, data⟩] := by
  have hconfined : Op.Confined writer.buffer.footprint
      (writer.buffer.append writer.config operation data) w
      fun b' _ => b' = { writer.buffer with pos := writer.buffer.pos + data.length } :=
    writer.buffer.confined_append operation data
  have happend := (hconfined hs hr).and
    (writer.buffer.ends_append_pieces writer.config operation data w)
  apply Writing.ends_writer_bind
  refine Writing.ends_onWorld_bind happend ?_ ?_
  · rintro b' w' ⟨⟨hc, rfl⟩, hp⟩
    exact ends_modify ⟨rfl, hc, hp⟩
  · rintro stop w' ⟨⟨he, hc⟩, hp⟩
    exact ⟨he, rfl, hc, hp⟩

theorem ends_undo (hs : w.disk.Sound) (hr : w.Returns) (writer : Writer) (n : Nat) (e : Error) :
    Ends (do
        Writing.setBuffer (← Writing.onWorld ((← Writing.writer).buffer.rewind writer.buffer.pos))
        throw (.error e) : Writing Unit) (writer.advance n, w) (fun _ _ => False)
      fun stop s' => stop = .error e ∧ s'.1 = writer ∧
        World.Changes writer.buffer.footprint w s'.2 ∧ s'.2.pieces = w.pieces := by
  have hrewind := (Buffer.confined_rewind (w := w) (writer.advance n).buffer writer.buffer.pos
    hs hr).and ((writer.advance n).buffer.quiet_rewind writer.buffer.pos w)
  apply Writing.ends_writer_bind
  cases hx : (writer.advance n).buffer.rewind writer.buffer.pos w with
  | ok b' w' =>
    obtain ⟨⟨hc, rfl⟩, hq⟩ := hrewind.ok hx
    refine ends_of_eq_error (e := .error e) (t := (writer, w')) ?_ ⟨rfl, rfl, hc, hq.pieces⟩
    have hmin : min writer.buffer.pos (writer.advance n).buffer.pos = writer.buffer.pos :=
      Nat.min_eq_left (Nat.le_add_right _ _)
    simp only [bind, EStateM.bind, Writing.onWorld, hx, hmin]
    rfl
  | error stop w' =>
    simp only [Buffer.rewind, bind, EStateM.bind, modify, modifyGet, MonadStateOf.modifyGet,
      EStateM.modifyGet, pure, EStateM.pure] at hx
    cases hx

theorem ends_writeRecord_any (hs : w.disk.Sound) (hr : w.Returns) (writer : Writer) (data : Bytes) :
    Ends (writeRecord data) (writer, w)
      (fun n s' => n = (writer.withRecord data).buffer.stop ∧ s'.1 = writer.withRecord data ∧
        ∃ w₁, World.Changes writer.buffer.footprint w w₁ ∧
          w₁.pieces = w.pieces ++ writer.buffer.pieces data ∧
          s'.2 = { w₁ with
            marks := w₁.marks.set writer.mark (writer.withRecord data).buffer.watermark })
      fun stop s' => (∃ e, stop = .error e) ∧ s'.1 = writer ∧
        World.Changes writer.buffer.footprint w s'.2 ∧
        ∃ pieces, pieces <+: writer.buffer.pieces data ∧ s'.2.pieces = w.pieces ++ pieces := by
  apply Writing.ends_writer_bind
  refine (ends_put_any hs hr writer _ _).bind ?_ ?_
  swap
  · rintro stop s' ⟨he, hw, hc, hp⟩
    exact ⟨he, hw, hc, _, ⟨[_], rfl⟩, hp⟩
  rintro _ ⟨writer₁, w₁⟩ ⟨rfl, hc₁, hp₁⟩
  dsimp only at hc₁ hp₁
  have hbody := ends_put_any (hc₁.disk.sound hs) (hc₁.returns hr)
    (writer.advance (Varint.encode data.length).length) "write body" data
  apply Ends.bind (P := fun _ s' =>
      s'.1 = (writer.advance (Varint.encode data.length).length).advance data.length ∧
      World.Changes writer.buffer.footprint w s'.2 ∧
      s'.2.pieces = w.pieces ++ writer.buffer.pieces data)
    (F := fun stop s' => (∃ e, stop = .error e) ∧ s'.1 = writer ∧
      World.Changes writer.buffer.footprint w s'.2 ∧
      ∃ pieces, pieces <+: writer.buffer.pieces data ∧ s'.2.pieces = w.pieces ++ pieces)
  · refine Ends.catch_stop (hbody.mono ?_ fun _ _ hE => hE) ?_
    · rintro _ s' ⟨hw, hc, hp⟩
      refine ⟨hw, hc₁.trans hc, ?_⟩
      rw [hp, hp₁, List.append_assoc]
      rfl
    · rintro stop ⟨writer₂, w₂⟩ ⟨⟨e, rfl⟩, hw, hc, hp⟩
      dsimp only at hw hc hp
      subst hw
      have hc₂ := hc₁.trans hc
      refine (ends_undo (hc₂.disk.sound hs) (hc₂.returns hr) writer _ e).mono
        (fun _ _ hF => hF.elim) ?_
      rintro _ s' ⟨rfl, hw, hc₃, hp₃⟩
      refine ⟨⟨e, rfl⟩, hw, hc₂.trans hc₃, _, List.prefix_refl _, ?_⟩
      rw [hp₃, hp, hp₁, List.append_assoc]
      rfl
  · rintro _ ⟨writer₂, w₂⟩ ⟨hw, hc, hp⟩
    dsimp only at hw hc hp
    subst hw
    refine ends_of_eq_ok (a := (writer.withRecord data).buffer.stop) (t := (writer.withRecord data,
      { w₂ with marks := w₂.marks.set writer.mark (writer.withRecord data).buffer.watermark })) ?_
      ⟨rfl, rfl, w₂, hc, hp, rfl⟩
    rw [← withRecord_eq]
    rfl
  · exact fun _ _ hE => hE

theorem Books.withRecord (h : Books q c writer w) (hf : writer.buffer.fits (size data) = true)
    {w₁ : World} (hc : World.Changes writer.buffer.footprint w w₁) :
    Books q c (writer.withRecord data)
      { w₁ with marks := w₁.marks.set writer.mark (writer.withRecord data).buffer.watermark } := by
  have h₁ := h.ofFootprint hc
  have hlen : writer.mark < w₁.marks.length := (List.getElem?_eq_some_iff.1 h₁.mark).1
  exact {
    home := h₁.home
    sound := h₁.sound
    index := h₁.index
    describes := h.describes.add (size_pos data) hf
    linked := h₁.linked
    mark := List.getElem?_set_self hlen }

end record

section sealing

theorem live_not_mem_sealing (writer : Writer) :
    q ++ [bufferFileName writer.buffer.start] ∉ (writer.buffer.sealing q).places := by
  have hdraft := (draftFileName_ne_bufferFileName writer.buffer.start writer.buffer.start).symm
  have hchunk := (chunkFileName_ne_bufferFileName writer.buffer.start writer.buffer.start).symm
  simp [Buffer.sealing, Chunk.footprint, hdraft, hchunk]

theorem Books.inLog_sealing (h : Books q c writer w) :
    (writer.buffer.sealing q).InLog q w.disk where
  places p hp := by
    simp only [Buffer.sealing, Chunk.footprint, List.mem_cons, List.not_mem_nil, or_false] at hp
    rcases hp with rfl | rfl
    · exact ⟨_, .draft _, rfl⟩
    · exact ⟨_, .chunk _, rfl⟩
  files := h.inLog_footprint.files

theorem inLog_live (start : Nat) (d : Disk) :
    ({ places := [q ++ [bufferFileName start]] } : Footprint).InLog q d where
  places p hp := ⟨_, LogName.live start, List.mem_singleton.1 hp⟩
  files id hid := by simp at hid

theorem live_not_mem_live {s t : Nat} (h : s ≠ t) :
    q ++ [bufferFileName s] ∉ ({ places := [q ++ [bufferFileName t]] } : Footprint).places := by
  simp only [List.mem_singleton, List.append_cancel_left_eq, List.cons.injEq, and_true]
  exact fun he => h (bufferFileName_injective he)

theorem Books.commits {c' : Catalog} (h : Books q c writer w)
    (hcom : Store.Commits q writer.store c' w w')
    (hd : c'.Describes writer.buffer.toBufferState) : Proceeds q (writer, w) c' (writer, w') := by
  obtain ⟨F, hplaces, -, hch⟩ := hcom.disk
  have hsame := World.Moves.sameFile_of_commits h.sound hcom (.live writer.buffer.start)
  obtain ⟨s, hs, -⟩ := h.index
  exact {
    books := {
      home := hch.enter h.home
      sound := hch.sound h.sound
      index := hcom.keeps
      describes := hd
      linked := hsame.names.trans h.linked
      mark := hcom.marks ▸ h.mark }
    config := rfl
    store := rfl
    stores := .inr ⟨s, c', hs, hcom.stores s hs⟩
    returns := hcom.returns }

theorem Books.rotated (h : Books q c writer w) (hpos : writer.buffer.pos ≠ 0) {diskSize : Nat}
    {salt : UInt64} {next : Buffer} {w₁ w₂ : World}
    (hnext : next.toBufferState = .fresh writer.buffer.stop writer.config.capacity salt)
    (hlinked : w.disk.names.get? (q ++ [bufferFileName writer.buffer.stop]) =
      some (.file next.handle))
    (hcom : Store.Commits q writer.store (c.seal (writer.buffer.chunk diskSize)
      (.fresh writer.buffer.stop writer.config.capacity salt)) w w₁)
    (hc : World.Changes { places := [q ++ [bufferFileName writer.buffer.start]] }
      { w₁ with marks := w₁.marks.set writer.mark next.watermark } w₂) :
    Proceeds q (writer, w) (c.seal (writer.buffer.chunk diskSize)
      (.fresh writer.buffer.stop writer.config.capacity salt)) ({ writer with buffer := next }, w₂) := by
  obtain ⟨F, hplaces, -, hch⟩ := hcom.disk
  have hstart : next.start = writer.buffer.stop := congrArg BufferState.start hnext
  have hne : writer.buffer.stop ≠ writer.buffer.start := by
    unfold BufferState.stop
    omega
  have hlen : writer.mark < w₁.marks.length := by
    rw [hcom.marks]
    exact (List.getElem?_eq_some_iff.1 h.mark).1
  have hsame := World.Moves.sameFile_of_commits h.sound hcom (.live writer.buffer.stop)
  obtain ⟨s, hs, -⟩ := h.index
  have hbooks : Books q (c.seal (writer.buffer.chunk diskSize)
      (.fresh writer.buffer.stop writer.config.capacity salt)) { writer with buffer := next }
      { w₁ with marks := w₁.marks.set writer.mark next.watermark } := {
    home := hch.enter h.home
    sound := hch.sound h.sound
    index := hcom.keeps
    describes := by
      rw [hnext]
      exact h.describes.sealed hpos diskSize writer.config.capacity salt
    linked := by
      rw [hstart]
      exact hsame.names.trans hlinked
    mark := List.getElem?_set_self hlen }
  have hkept : q ++ [bufferFileName next.start] ∉
      ({ places := [q ++ [bufferFileName writer.buffer.start]] } : Footprint).places :=
    live_not_mem_live (hstart ▸ hne)
  exact {
    books := hbooks.changes (inLog_live _ _) hkept hc
    config := rfl
    store := rfl
    stores := .inr ⟨s, _, hs, hc.stores.trans (hcom.stores s hs)⟩
    returns := fun hr => hc.returns (hcom.returns hr) }

/-- Sealing makes a chunk of the live segment and starts the next one, or leaves the books alone. -/
theorem ends_rotate_any (h : Books q c writer w) (hr : w.Returns) (hpos : writer.buffer.pos ≠ 0) :
    Ends rotate (writer, w)
      (fun _ s' => ∃ salt diskSize,
        s'.1.buffer.toBufferState = .fresh writer.buffer.stop writer.config.capacity salt ∧
        Proceeds q (writer, w) (c.seal (writer.buffer.chunk diskSize)
          (.fresh writer.buffer.stop writer.config.capacity salt)) s')
      fun stop s' => (∃ e, stop = .error e) ∧ s'.1 = writer ∧ Proceeds q (writer, w) c s' := by
  apply Writing.ends_writer_bind
  have hsealing {w' : World} (hc : World.Changes (writer.buffer.sealing q) w w') :
      Proceeds q (writer, w) c (writer, w') :=
    .ofChanges (h.changes h.inLog_sealing (live_not_mem_sealing writer) hc) hc
  refine Writing.ends_onWorld_bind (writer.buffer.confined_flush (F := writer.buffer.sealing q)
    h.sound hr) (fun _ w₁ h₁ => ?_) fun _ _ hE => ⟨hE.1, rfl, hsealing hE.2⟩
  have hc₁ := h₁.1
  refine Writing.ends_onWorld_bind (writer.buffer.confined_sealed (hc₁.disk.enter h.home)
    (hc₁.disk.sound h.sound) (hc₁.returns hr)) ?_ fun _ _ hE =>
      ⟨hE.1, rfl, hsealing (hc₁.trans hE.2)⟩
  rintro _ w₂ ⟨hc₂, diskSize, rfl⟩
  have hp₂ := hsealing (hc₁.trans hc₂)
  have hne : writer.buffer.start ≠ writer.buffer.stop := by
    unfold BufferState.stop
    omega
  have hnext {w' : World} (hc : World.Changes
      { places := [q ++ [bufferFileName writer.buffer.stop]] } w₂ w') :
      Proceeds q (writer, w) c (writer, w') :=
    hp₂.trans (.ofChanges (hp₂.books.changes (inLog_live _ _) (live_not_mem_live hne) hc) hc)
  refine Writing.ends_onWorld_bind (Buffer.confined_create hp₂.books.home writer.buffer.stop
    hp₂.books.sound (hp₂.returns hr)) ?_ fun _ _ hE => ⟨hE.1, rfl, hnext hE.2⟩
  rintro next w₃ ⟨hc₃, ⟨salt, hstate⟩, hlinked⟩
  have hp₃ := hnext hc₃
  refine Writing.ends_onWorld_bind (Store.ends_update hp₃.books.sound hp₃.books.index
    (smooth_seal c (writer.buffer.chunk diskSize) next.state)) ?_ ?_
  swap
  · rintro _ w₄ ⟨hi, hf⟩
    exact ⟨hf (hp₃.returns hr), rfl, hp₃.trans (.ofChanges (F := {}) (hp₃.books.idle hi) hi.changes)⟩
  rintro _ w₄ ⟨c', hout, hcom⟩
  rw [outcome_seal] at hout
  cases hout
  rw [show next.state = .fresh writer.buffer.stop writer.config.capacity salt from hstate] at hcom
  obtain ⟨F, -, -, hch⟩ := hcom.disk
  refine ends_modify_bind (ends_modify_bind ?_)
  rw [h.describes.file]
  refine Ends.onWorld ((Op.ends_discard
    (w := { w₄ with marks := w₄.marks.set writer.mark next.watermark })
    (F := { places := [q ++ [bufferFileName writer.buffer.start]] }) (hch.enter hp₃.books.home)
    (LogName.live writer.buffer.start).plain (by simp) (hcom.returns (hp₃.returns hr))).mono ?_
    fun _ _ hF => hF.elim)
  rintro _ w₅ ⟨hc₅, -, -, -⟩
  exact ⟨salt, diskSize, hstate, hp₃.trans (hp₃.books.rotated hpos hstate hlinked hcom hc₅)⟩

end sealing

/-- What an operation comes to, as far as the books and the pieces tell. -/
def Attempted (q : Place) (c : Catalog) (writer : Writer) (w : World) (a : Action)
    (answer : Except Stop (Option Nat)) (s' : Writer × World) : Prop :=
  ∃ c' pieces, Posting writer.config.capacity writer.buffer.toBufferState c a answer
      s'.1.buffer.toBufferState c' pieces ∧
    Proceeds q (writer, w) c' s' ∧ s'.2.pieces = w.pieces ++ pieces

section operations

theorem Proceeds.attempted_of_same {a : Action} {answer : Except Stop (Option Nat)}
    {s' : Writer × World} (h : Proceeds q (writer, w) c s')
    (hn : a.kept answer = none ∧ a.appended answer = [])
    (hc : a.covers answer writer.buffer.toBufferState writer.buffer.toBufferState = true →
      writer.buffer.pos = 0)
    (hb : s'.1.buffer = writer.buffer) (hp : s'.2.pieces = w.pieces) :
    Attempted q c writer w a answer s' := by
  refine ⟨c, [], ?_, h, by rw [hp, List.append_nil]⟩
  rw [hb]
  exact .same hn hc

theorem Proceeds.attempted_of_error {a : Action} {stop : Stop} {s' : Writer × World}
    (h : Proceeds q (writer, w) c s') (hb : s'.1.buffer = writer.buffer)
    (hp : s'.2.pieces = w.pieces) : Attempted q c writer w a (.error stop) s' :=
  h.attempted_of_same (by cases a <;> exact ⟨rfl, rfl⟩) (by simp [Action.covers]) hb hp

theorem ends_writeRecord_room {b₁ : BufferState} {c₁ : Catalog} {writer₁ : Writer} {w₁ : World}
    (hd : Writable data)
    (hroom : Room writer.config.capacity writer.buffer.toBufferState c (size data) b₁ c₁)
    (hp : Proceeds q (writer, w) c₁ (writer₁, w₁)) (hr : w.Returns)
    (hb : writer₁.buffer.toBufferState = b₁) (hpieces : w₁.pieces = w.pieces) :
    Ends (writeRecord data) (writer₁, w₁)
      (fun n s' => Attempted q c writer w (.append data hd) (.ok (some n)) s')
      fun stop s' => Attempted q c writer w (.append data hd) (.error stop) s' := by
  subst hb
  have hbooks : Books q c₁ writer₁ w₁ := hp.books
  refine (ends_writeRecord_any hbooks.sound (hp.returns hr) writer₁ data).mono ?_ ?_
  · rintro n ⟨writer₂, w₂⟩ ⟨rfl, hw, w₃, hc, hp₃, hw₂⟩
    dsimp only at hw hw₂
    subst hw hw₂
    refine ⟨c₁, _, .appended hroom, hp.trans ?_, ?_⟩
    · exact ⟨hbooks.withRecord hroom.fits_eq hc, rfl, rfl, .inl hc.stores, hc.returns⟩
    · rw [← hpieces]
      exact hp₃
  · rintro stop ⟨writer₂, w₂⟩ ⟨⟨e, rfl⟩, hw, hc, pieces, hpre, hp₃⟩
    obtain rfl : writer₂ = writer₁ := hw
    refine ⟨c₁, pieces, .broken hroom hpre, hp.trans (.ofChanges (hbooks.ofFootprint hc) hc), ?_⟩
    rw [← hpieces]
    exact hp₃

theorem ends_append_any (h : Books q c writer w) (hr : w.Returns) (hd : Writable data) :
    Ends (append data) (writer, w)
      (fun n s' => Attempted q c writer w (.append data hd) (.ok (some n)) s')
      fun stop s' => Attempted q c writer w (.append data hd) (.error stop) s' := by
  apply Writing.ends_writer_bind
  rw [Record.length_encode]
  cases hf : writer.buffer.fits (size data) with
  | true =>
    simp only [if_true]
    exact ends_writeRecord_room hd (.fits hf) (.refl h) hr rfl rfl
  | false =>
    simp only [Bool.false_eq_true, if_false]
    refine ((ends_rotate_any h hr (pos_ne_zero_of_not_fits hf)).and
      (still_rotate (writer, w))).bind ?_ ?_
    · rintro _ ⟨writer₁, w₁⟩ ⟨⟨salt, diskSize, hb, hp⟩, hstill⟩
      exact ends_writeRecord_room hd (.sealed hf) hp hr hb hstill.pieces
    · rintro stop s' ⟨⟨-, hw, hp⟩, hstill⟩
      exact hp.attempted_of_error (by rw [hw]) hstill.pieces

theorem ends_sealLive_any (h : Books q c writer w) (hr : w.Returns) :
    Ends sealLive (writer, w)
      (fun _ s' => Attempted q c writer w .sealLive (.ok none) s')
      fun stop s' => Attempted q c writer w .sealLive (.error stop) s' := by
  apply Writing.ends_writer_bind
  by_cases hpos : writer.buffer.pos = 0
  · simp only [hpos, if_true]
    exact ends_pure ((Proceeds.refl h).attempted_of_same ⟨rfl, rfl⟩ (fun _ => hpos) rfl rfl)
  · simp only [hpos, if_false]
    refine ((ends_rotate_any h hr hpos).and (still_rotate (writer, w))).mono ?_ ?_
    · rintro _ ⟨writer₁, w₁⟩ ⟨⟨salt, diskSize, hb, hp⟩, hstill⟩
      refine ⟨_, [], ?_, hp, by rw [hstill.pieces, List.append_nil]⟩
      rw [hb]
      exact .sealed hpos
    · rintro stop s' ⟨⟨-, hw, hp⟩, hstill⟩
      exact hp.attempted_of_error (by rw [hw]) hstill.pieces

theorem ends_update_any {p : Program α} (h : Books q c writer w) (hr : w.Returns)
    (hp : ∀ inFile, p.Smooth inFile c)
    (hd : ∀ a c', p.outcome? c = some (a, c') → c'.Describes writer.buffer.toBufferState) :
    Ends (Store.update writer.store p) w
      (fun a w' => ∃ c', p.outcome? c = some (a, c') ∧ Proceeds q (writer, w) c' (writer, w') ∧
        w'.pieces = w.pieces)
      fun stop w' => (∃ e, stop = .error e) ∧ Proceeds q (writer, w) c (writer, w') ∧
        w'.pieces = w.pieces := by
  refine ((Store.ends_update h.sound h.index hp).and (Store.quiet_update writer.store p w)).mono ?_ ?_
  · rintro a w' ⟨⟨c', hout, hcom⟩, hquiet⟩
    exact ⟨c', hout, h.commits hcom (hd a c' hout), hquiet.pieces⟩
  · rintro stop w' ⟨⟨hi, hf⟩, hquiet⟩
    exact ⟨hf hr, .ofChanges (F := {}) (h.idle hi) hi.changes, hquiet.pieces⟩

theorem ends_checkpoint_any (h : Books q c writer w) (hr : w.Returns) :
    Ends checkpoint (writer, w)
      (fun n s' => Attempted q c writer w .checkpoint (.ok (some n)) s')
      fun stop s' => Attempted q c writer w .checkpoint (.error stop) s' := by
  apply Writing.ends_writer_bind
  refine Writing.ends_onWorld_bind ((writer.buffer.confined_flush (F := {}) h.sound hr).and
    (writer.buffer.quiet_flush writer.config w)) ?_ ?_
  swap
  · rintro stop w₁ ⟨⟨-, hc⟩, hquiet⟩
    have hb := h.changes (F := {}) ⟨by simp, by simp⟩ (by simp) hc
    exact (Proceeds.ofChanges hb hc).attempted_of_error rfl hquiet.pieces
  rintro _ w₁ ⟨⟨hc, -⟩, hquiet⟩
  have hb := h.changes (F := {}) ⟨by simp, by simp⟩ (by simp) hc
  have hp : Proceeds q (writer, w) c (writer, w₁) := .ofChanges hb hc
  refine Writing.ends_onWorld_bind (ends_update_any hb (hc.returns hr)
    (smooth_checkpoint c writer.buffer.state writer.stats) ?_) ?_ ?_
  · intro _ c' hout
    obtain rfl : _ = c' := congrArg Prod.snd (Option.some.inj hout)
    exact h.describes.keep (some writer.stats)
  · rintro _ w₂ ⟨c', hout, hp₂, hpieces⟩
    obtain rfl : _ = c' := congrArg Prod.snd (Option.some.inj hout)
    refine ends_pure ⟨_, [], .kept, hp.trans hp₂, ?_⟩
    rw [hpieces, hquiet.pieces, List.append_nil]
  · rintro stop w₂ ⟨-, hp₂, hpieces⟩
    exact (hp.trans hp₂).attempted_of_error rfl (hpieces.trans hquiet.pieces)

theorem ends_putCheckpoint_any (h : Books q c writer w) (hr : w.Returns) (name : String)
    (pos : Nat) :
    Ends (putCheckpoint writer name pos) w
      (fun _ w' => Attempted q c writer w (.putCheckpoint name pos) (.ok none) (writer, w'))
      fun stop w' =>
        Attempted q c writer w (.putCheckpoint name pos) (.error stop) (writer, w') := by
  have hsmooth (inFile : Bool) :
      Program.Smooth inFile c (Program.request (.putCheckpoint name pos)) :=
    ⟨fun _ => trivial, fun _ _ _ => trivial⟩
  refine (ends_update_any h hr hsmooth ?_).mono ?_ ?_
  · intro _ c' hout
    obtain rfl : _ = c' := congrArg Prod.snd (Option.some.inj hout)
    exact h.describes.named _
  · rintro _ w' ⟨c', hout, hp, hpieces⟩
    obtain rfl : _ = c' := congrArg Prod.snd (Option.some.inj hout)
    exact ⟨_, [], .same ⟨rfl, rfl⟩ (by simp [Action.covers]), hp, by rw [hpieces, List.append_nil]⟩
  · rintro stop w' ⟨-, hp, hpieces⟩
    exact hp.attempted_of_error rfl hpieces

/-- Whatever a writer is asked for makes a posting, and its books are in order again. -/
theorem Books.attempted (h : Books q c writer w) (hr : w.Returns) (a : Action) :
    Attempted q c writer w a (a.perform.attempt (writer, w)).1
      (a.perform.attempt (writer, w)).2 := by
  refine Ends.attempt (P := Attempted q c writer w a) ?_
  cases a with
  | append data hd => exact (ends_append_any h hr hd).map some
  | sealLive =>
    exact (ends_sealLive_any h hr).bind (fun _ _ hQ => ends_pure hQ) fun _ _ hE => hE
  | checkpoint => exact (ends_checkpoint_any h hr).map some
  | observeKey keySize hk =>
    refine ends_modify_bind (ends_pure ⟨c, [], .same ⟨rfl, rfl⟩ ?_, ?_, (List.append_nil _).symm⟩)
    · simp [Action.covers]
    · exact ⟨{ h with }, rfl, rfl, .inl rfl, fun h => h⟩
  | putCheckpoint name pos =>
    apply Writing.ends_writer_bind
    exact Writing.ends_onWorld_bind (ends_putCheckpoint_any h hr name pos)
      (fun _ _ hQ => ends_pure hQ) fun _ _ hE => hE

end operations

end Writer

end RecordLog
