import Mathlib
import RecordLog.Proofs.LostNames
import RecordLog.Proofs.Outlines

/-!
# A writer whose live file lost its name

A writer reads and writes its live file through the handle that it has. So if the name of that file,
or of one it had before, is gone, every operation answers what it would have answered, and leaves
behind what it would have left, but for the name.
-/

namespace RecordLog

open World

variable {α : Type} {cfg : Config} {q : Place} {first : Nat} {gone name : String}

namespace Store

variable {id : StoreId}

theorem mirrors_lookup : Mirrors (Lacks cfg q gone) (lookup id) := by
  rintro w _ ⟨hl, rfl⟩
  have hstores : (w.without (q ++ [gone])).stores = w.stores := rfl
  simp only [lookup, hstores]
  cases w.stores[id]? with
  | none => exact .error ⟨hl, rfl⟩
  | some s => exact .ok ⟨hl, rfl⟩

theorem mirrors_replace (s : Store) : Mirrors (Lacks cfg q gone) (replace id s) :=
  mirrors_modify fun _ _ h => ⟨h.loose, by rw [h.eq]; rfl⟩

theorem tables_without (s : Store) (d : Disk) (p : Place) : s.tables (d.without p) = s.tables d := by
  unfold tables
  cases s.medium <;> rfl

theorem mirrors_begin (h : Hook) : Mirrors (Lacks cfg q gone) (begin id h) := by
  have hcheck : Mirrors (Lacks cfg q gone) (do
      let s ← lookup id
      Op.ofExcept s.check
      pure (s.tables (← get).disk)) := by
    refine mirrors_lookup.bind fun s => (Op.mirrors_ofExcept _).bind fun _ =>
      mirrors_get_bind ?_
    rintro w _ ⟨hl, rfl⟩
    have htables : s.tables (w.without (q ++ [gone])).disk = s.tables w.disk :=
      s.tables_without _ _
    rw [htables]
    exact .ok ⟨hl, rfl⟩
  refine mirrors_lookup.bind fun s => ?_
  split
  · split
    · exact (Op.mirrors_trace _).bind fun _ => (Op.mirrors_pass h).bind fun _ => hcheck
    · exact (Op.mirrors_pass h).bind fun _ => hcheck
  · exact hcheck

theorem mirrors_commit (t : Tables) : Mirrors (Lacks cfg q gone) (commit id t) := by
  refine mirrors_lookup.bind fun s => ?_
  cases hf : s.failCommits with
  | true =>
    simp only [if_true]
    exact mirrors_throw _
  | false =>
    simp only [Bool.false_eq_true, if_false]
    split
    · exact mirrors_replace _
    · exact mirrors_modify fun _ _ h =>
        ⟨h.loose.of_folders fun _ => Iff.rfl, by rw [h.eq]; rfl⟩
    · exact mirrors_pure _

theorem mirrors_abandon (stop : Stop) : Mirrors (Lacks cfg q gone) (abandon id stop : Op α) := by
  refine mirrors_lookup.bind fun s => ?_
  dsimp only
  split
  · exact (mirrors_replace _).bind fun _ => mirrors_throw _
  · exact mirrors_throw _

theorem mirrors_update (p : Program α) : Mirrors (Lacks cfg q gone) (update id p) := by
  rw [update_eq]
  refine (mirrors_begin .update).bind fun t => ?_
  split
  · exact mirrors_abandon _
  · exact (mirrors_commit _).bind fun _ => mirrors_pure _

end Store

namespace Chunk

theorem mirrors_persist (start : Nat) (bytes : Bytes) :
    Mirrors (Lacks cfg q (bufferFileName first)) (persist cfg start bytes) := by
  have hdraft : Disk.Loose.Spares cfg q (bufferFileName first) fun d =>
      (d.openOrCreate (cfg.locate (draftFileName start))).map fun r => (r.1, r.2.empty r.1) := by
    refine fun d h => ?_
    obtain ⟨hwithout, hloose⟩ := Disk.Loose.spares_openOrCreate (LogName.draft start).plain
      (draftFileName_ne_bufferFileName start first) d h
    dsimp only at hwithout hloose ⊢
    rw [hwithout]
    cases hx : d.openOrCreate (cfg.locate (draftFileName start)) with
    | error cause => exact ⟨rfl, fun _ _ hd => by cases hd⟩
    | ok r =>
      refine ⟨rfl, fun _ _ hd => ?_⟩
      cases hd
      exact (hloose r.1 r.2 hx).of_folders fun _ => Iff.rfl
  have hrename : Mirrors (Lacks cfg q (bufferFileName first)) (do
      Op.passDisk .rename "rename chunk"
      Op.changeDisk "rename chunk"
        (·.rename (cfg.locate (draftFileName start)) (cfg.locate (chunkFileName start)))
      pure bytes.length) :=
    (Op.mirrors_passDisk _ _).bind fun _ => (Op.mirrors_onDisk (Disk.Loose.spares_rename
      (LogName.draft start).plain (draftFileName_ne_bufferFileName start first)
      (LogName.chunk start).plain (chunkFileName_ne_bufferFileName start first)) _).bind
        fun _ => mirrors_pure _
  refine (Op.mirrors_passDisk _ _).bind fun _ => (Op.mirrors_onDisk hdraft _).bind fun id =>
    (Op.mirrors_addHead 0).bind fun head => (Op.mirrors_writeFile _ id head bytes).bind fun _ => ?_
  split
  · exact (Op.mirrors_onDisk (Disk.Loose.spares_look fun _ _ => rfl) _).bind fun _ => hrename
  · exact hrename

end Chunk

namespace Buffer

theorem mirrors_resume {s : BufferState} (hn : Path.Plain s.file) (hne : s.file ≠ gone) :
    Mirrors (Lacks cfg q gone) (resume cfg s) := by
  have hhead (id : FileId) :
      Mirrors (Lacks cfg q gone) (do pure (⟨s, id, ← Op.addHead s.pos⟩ : Buffer)) :=
    (Op.mirrors_addHead s.pos).bind fun _ => mirrors_pure _
  have hcut (id : FileId) (size : Nat) : Mirrors (Lacks cfg q gone) (do
      if s.pos < size then Op.changeDisk "truncate buffer" (·.setSize id s.pos)
      pure (⟨s, id, ← Op.addHead s.pos⟩ : Buffer)) := by
    split
    · exact (Op.mirrors_onDisk (Disk.Loose.spares_setContent id) _).bind fun _ => hhead id
    · exact hhead id
  refine (Op.mirrors_passDisk _ _).bind fun _ =>
    (Op.mirrors_onDisk (Disk.Loose.spares_openOrCreate hn hne) _).bind fun id =>
      mirrors_get_bind ?_
  rintro w _ ⟨hl, rfl⟩
  have hsize : (w.without (q ++ [gone])).disk.content id = w.disk.content id := rfl
  rw [hsize]
  dsimp only
  split
  · exact (mirrors_throw _).bind (fun _ => hcut id _) w _ ⟨hl, rfl⟩
  · exact hcut id _ w _ ⟨hl, rfl⟩

theorem gives_resume (s : BufferState) : Gives (fun b => b.toBufferState = s) (resume cfg s) := by
  have hhead (id : FileId) : Gives (fun b => b.toBufferState = s)
      (do pure (⟨s, id, ← Op.addHead s.pos⟩ : Buffer)) :=
    gives_bind fun _ => gives_pure rfl
  refine gives_bind fun _ => gives_bind fun id => gives_bind fun w => ?_
  dsimp only
  have hcut : Gives (fun b => b.toBufferState = s) (do
      if s.pos < (w.disk.content id).size then
        Op.changeDisk "truncate buffer" (·.setSize id s.pos)
      pure (⟨s, id, ← Op.addHead s.pos⟩ : Buffer)) := by
    split
    · exact gives_bind fun _ => hhead id
    · exact hhead id
  split
  · exact gives_bind fun _ => hcut
  · exact hcut

theorem mirrors_create {start : Nat} (hne : start ≠ first) :
    Mirrors (Lacks cfg q (bufferFileName first)) (create cfg start) :=
  Op.mirrors_drawSalt.bind fun _ =>
    mirrors_resume (LogName.live start).plain fun h => hne (bufferFileName_injective h)

theorem gives_create (start : Nat) :
    Gives (fun b => b.file = bufferFileName b.start ∧ b.start = start) (create cfg start) := by
  refine gives_bind fun salt w => ((gives_resume _) w).mono (fun b _ hb => ?_) fun _ _ h => h
  rw [hb]
  exact ⟨rfl, rfl⟩

variable (b : Buffer)

theorem mirrors_rewind (pos : Nat) : Mirrors (Lacks cfg q gone) (b.rewind pos) := by
  refine (mirrors_modify ?_).bind fun _ => mirrors_pure _
  rintro w _ ⟨hl, rfl⟩
  have hset : (w.without (q ++ [gone])).disk.setSize b.handle (min pos b.pos) =
      (w.disk.setSize b.handle (min pos b.pos)).map (Disk.without · (q ++ [gone])) :=
    Disk.map_setContent_without (·.setSize (min pos b.pos)) w.disk b.handle (q ++ [gone])
  rw [hset]
  cases hx : w.disk.setSize b.handle (min pos b.pos) with
  | error cause => exact ⟨hl, rfl⟩
  | ok d => exact ⟨hl.of_setContent (f := (·.setSize (min pos b.pos))) hx, rfl⟩

def Same (b b' : Buffer) : Prop := b'.start = b.start ∧ b'.file = b.file

theorem gives_rewind (pos : Nat) : Gives b.Same (b.rewind pos) :=
  gives_bind fun _ => gives_pure ⟨rfl, rfl⟩

theorem mirrors_append (operation : String) (data : Bytes) :
    Mirrors (Lacks cfg q gone) (b.append cfg operation data) := by
  refine (Op.mirrors_call _ _ _).bind fun encoded => ?_
  refine Mirrors.bind ((Op.mirrors_writeFile _ _ _ _).catch_stop fun stop => ?_) fun _ =>
    (Op.mirrors_trace _).bind fun _ => mirrors_pure _
  cases stop with
  | error e => exact (b.mirrors_rewind _).bind fun _ => mirrors_throw _
  | crash => exact mirrors_throw _

theorem gives_append (operation : String) (data : Bytes) :
    Gives b.Same (b.append cfg operation data) :=
  gives_bind fun _ => gives_bind fun _ => gives_bind fun _ => gives_pure ⟨rfl, rfl⟩

theorem mirrors_flush : Mirrors (Lacks cfg q gone) (b.flush cfg) := by
  unfold flush
  split
  · exact Op.mirrors_onDisk (Disk.Loose.spares_look fun _ _ => rfl) _
  · exact mirrors_pure _

theorem mirrors_content : Mirrors (Lacks cfg q gone) (b.content cfg) := by
  refine (Op.mirrors_seek _ _).bind fun _ => (Op.mirrors_readFile _ _ _).bind fun bytes =>
    (Op.mirrors_seek _ _).bind fun _ => ?_
  split
  · exact Op.mirrors_call _ _ _
  · exact mirrors_throw _

theorem mirrors_sealed : Mirrors (Lacks cfg q (bufferFileName first)) (b.sealed cfg) :=
  b.mirrors_content.bind fun _ => (Op.mirrors_call _ _ _).bind fun _ =>
    (Op.mirrors_encrypt _ _).bind fun _ => (Chunk.mirrors_persist _ _).bind fun _ =>
      mirrors_pure _

theorem gives_sealed : Gives (fun c : Chunk => c.stop = b.stop) (b.sealed cfg) :=
  gives_bind fun _ => gives_bind fun _ => gives_bind fun _ => gives_bind fun _ => gives_pure rfl

end Buffer

namespace Writer

/-- A writer in a world, and in the same world without the name of its live file or of one it had
before. -/
structure Lacks (cfg : Config) (q : Place) (first : Nat) (s s' : Writer × World) : Prop where
  same : s'.1 = s.1
  config : s.1.config = cfg
  file : s.1.buffer.file = bufferFileName s.1.buffer.start
  le : first ≤ s.1.buffer.start
  world : World.Lacks cfg q (bufferFileName first) s.2 s'.2

end Writer

namespace Writing

open Writer

theorem mirrors_onWorld {op : Op α} (h : Mirrors (World.Lacks cfg q (bufferFileName first)) op) :
    Mirrors (Lacks cfg q first) (onWorld op) := by
  rintro ⟨writer, w⟩ ⟨writer', w'⟩ hs
  obtain rfl : writer' = writer := hs.same
  have hop := h w w' hs.world
  simp only [onWorld]
  cases hx : op w with
  | ok a t =>
    obtain ⟨t', hx', ht⟩ := hop.exists_of_ok hx
    rw [hx']
    exact .ok { hs with world := ht }
  | error stop t =>
    obtain ⟨t', hx', ht⟩ := hop.exists_of_error hx
    rw [hx']
    exact .error { hs with world := ht }

theorem mirrored_writer_bind {f : Writer → Writing α} {s s' : Writer × World}
    (h : Lacks cfg q first s s') (hf : Mirrored (Lacks cfg q first) (f s.1 s) (f s.1 s')) :
    Mirrored (Lacks cfg q first) ((writer >>= f) s) ((writer >>= f) s') := by
  have hs' : (writer >>= f) s' = f s'.1 s' := rfl
  rw [hs', h.same]
  exact hf

theorem mirrors_writer_bind {f : Writer → Writing α}
    (hf : ∀ writer : Writer, writer.config = cfg →
      writer.buffer.file = bufferFileName writer.buffer.start → first ≤ writer.buffer.start →
      Mirrors (Lacks cfg q first) (f writer)) : Mirrors (Lacks cfg q first) (writer >>= f) :=
  fun s s' h => mirrored_writer_bind h (hf s.1 h.config h.file h.le s s' h)

theorem mirrors_rewrite (f : Writer → Writer)
    (hconfig : ∀ writer, (f writer).config = writer.config)
    (hbuffer : ∀ writer : Writer, writer.buffer.file = bufferFileName writer.buffer.start →
      first ≤ writer.buffer.start →
      (f writer).buffer.file = bufferFileName (f writer).buffer.start ∧
        first ≤ (f writer).buffer.start) :
    Mirrors (Lacks cfg q first) (modify fun (writer, w) => (f writer, w) : Writing Unit) := by
  refine mirrors_modify ?_
  rintro ⟨writer, w⟩ ⟨writer', w'⟩ ⟨hsame, hcfg, hfile, hle, hw⟩
  obtain rfl : writer' = writer := hsame
  obtain ⟨hfile', hle'⟩ := hbuffer writer' hfile hle
  exact ⟨rfl, (hconfig writer').trans hcfg, hfile', hle', hw⟩

theorem mirrors_setBuffer {b : Buffer} (hfile : b.file = bufferFileName b.start)
    (hle : first ≤ b.start) : Mirrors (Lacks cfg q first) (setBuffer b) :=
  mirrors_rewrite ({ · with buffer := b }) (fun _ => rfl) fun _ _ _ => ⟨hfile, hle⟩

theorem mirrors_publish : Mirrors (Lacks cfg q first) publish := by
  refine mirrors_modify ?_
  rintro ⟨writer, w⟩ ⟨writer', w'⟩ ⟨hsame, hconfig, hfile, hle, hl, heq⟩
  obtain rfl : writer' = writer := hsame
  obtain rfl : w' = w.without _ := heq
  exact ⟨rfl, hconfig, hfile, hle, hl, rfl⟩

end Writing

namespace Writer

open Writing

theorem mirrored_rotate {s s' : Writer × World} (h : Lacks cfg q first s s')
    (hpos : s.1.buffer.pos ≠ 0) : Mirrored (Lacks cfg q first) (rotate s) (rotate s') := by
  refine mirrored_writer_bind h ?_
  have hlt : first < s.1.buffer.stop := by
    have := h.le
    rw [BufferState.stop]
    omega
  have hcfg := h.config
  have hn : Path.Plain s.1.buffer.file := h.file ▸ (LogName.live _).plain
  generalize s.1 = w at hcfg hn hlt
  subst hcfg
  refine Mirrors.bind (mirrors_onWorld w.buffer.mirrors_flush) (fun _ => ?_) s s' h
  refine (mirrors_onWorld w.buffer.mirrors_sealed).bind_of_gives (Q := fun c => c.stop = w.buffer.stop)
    ?_ fun chunk hchunk => ?_
  · exact fun s => Ends.onWorld (w.buffer.gives_sealed s.2)
  refine (mirrors_onWorld (Buffer.mirrors_create (by omega))).bind_of_gives
    (Q := fun b => b.file = bufferFileName b.start ∧ b.start = chunk.stop) ?_ fun next hnext => ?_
  · exact fun s => Ends.onWorld (Buffer.gives_create _ s.2)
  refine (mirrors_onWorld (Store.mirrors_update _)).bind fun _ =>
    (mirrors_setBuffer hnext.1 (by omega)).bind fun _ => mirrors_publish.bind fun _ =>
      mirrors_onWorld (Op.mirrors_discard hn)

theorem mirrors_put (operation : String) (data : Bytes) :
    Mirrors (Lacks cfg q first) (put operation data) := by
  refine mirrors_writer_bind fun w hcfg hfile hle => ?_
  subst hcfg
  refine (mirrors_onWorld (w.buffer.mirrors_append _ _)).bind_of_gives (Q := w.buffer.Same) ?_
    fun b hb => ?_
  · exact fun s => Ends.onWorld (w.buffer.gives_append _ _ s.2)
  · exact mirrors_setBuffer (by rw [hb.1, hb.2, hfile]) (hb.1 ▸ hle)

theorem mirrors_writeRecord (data : Bytes) : Mirrors (Lacks cfg q first) (writeRecord data) := by
  refine mirrors_writer_bind fun w _ _ _ => (mirrors_put _ _).bind fun _ => ?_
  refine Mirrors.bind ((mirrors_put _ _).catch_stop fun stop => ?_) fun _ => ?_
  · cases stop with
    | crash => exact mirrors_throw _
    | error e =>
      refine mirrors_writer_bind fun w _ hfile hle => ?_
      refine (mirrors_onWorld (w.buffer.mirrors_rewind _)).bind_of_gives (Q := w.buffer.Same) ?_
        fun b hb => (mirrors_setBuffer (by rw [hb.1, hb.2, hfile]) (hb.1 ▸ hle)).bind
          fun _ => mirrors_throw _
      exact fun s => Ends.onWorld (w.buffer.gives_rewind _ s.2)
  · have hend : Mirrors (Lacks cfg q first) _ := mirrors_rewrite (fun writer => { writer with
        buffer := writer.buffer.endRecord
        stats := writer.stats.observeValue data.length })
      (fun _ => rfl) fun _ hfile hle => ⟨hfile, hle⟩
    exact hend.bind fun _ => mirrors_publish.bind fun _ =>
      mirrors_writer_bind fun _ _ _ _ => mirrors_pure _

theorem mirrors_append (data : Bytes) : Mirrors (Lacks cfg q first) (append data) := by
  intro s s' h
  refine mirrored_writer_bind h ?_
  cases hfits : s.1.buffer.fits (Record.encode data).length with
  | true => exact mirrors_writeRecord data s s' h
  | false =>
    have hpos : s.1.buffer.pos ≠ 0 := by
      intro h0
      simp [BufferState.fits, h0] at hfits
    exact (mirrored_rotate h hpos).bind fun _ t t' _ ht => mirrors_writeRecord data t t' ht

theorem mirrors_sealLive : Mirrors (Lacks cfg q first) sealLive := by
  intro s s' h
  refine mirrored_writer_bind h ?_
  by_cases hpos : s.1.buffer.pos = 0
  · simp only [hpos, if_true]
    exact .ok h
  · simp only [hpos, if_false]
    exact mirrored_rotate h hpos

theorem mirrors_checkpoint : Mirrors (Lacks cfg q first) checkpoint := by
  refine mirrors_writer_bind fun w hcfg _ _ => ?_
  subst hcfg
  exact (mirrors_onWorld w.buffer.mirrors_flush).bind fun _ =>
    (mirrors_onWorld (Store.mirrors_update _)).bind fun _ => mirrors_pure _

theorem mirrors_observeKey (size : Nat) : Mirrors (Lacks cfg q first) (observeKey size) :=
  mirrors_rewrite (fun writer => { writer with stats := writer.stats.observeKey size })
    (fun _ => rfl) fun _ hfile hle => ⟨hfile, hle⟩

end Writer

open Writer

theorem Action.mirrors_perform (a : Action) : Mirrors (Lacks cfg q first) a.perform := by
  cases a with
  | append data h => exact (mirrors_append data).map some
  | sealLive => exact mirrors_sealLive.bind fun _ => mirrors_pure _
  | checkpoint => exact mirrors_checkpoint.map some
  | observeKey keySize h => exact (mirrors_observeKey keySize).bind fun _ => mirrors_pure _
  | putCheckpoint name pos =>
    exact Writing.mirrors_writer_bind fun w _ _ _ =>
      (Writing.mirrors_onWorld (Store.mirrors_update _)).bind fun _ => mirrors_pure _

namespace Writer.Lacks

variable {s s' : Writer × World}

theorem under (h : Lacks cfg q first s s') (id : StoreId) (k : Circumstances) :
    Lacks cfg q first (s.1, s.2.under id k) (s'.1, s'.2.under id k) where
  same := h.same
  config := h.config
  file := h.file
  le := h.le
  world := ⟨h.world.loose, by rw [h.world.eq]; rfl⟩

theorem settle (h : Lacks cfg q first s s') :
    Lacks cfg q first (s.1, s.2.under s.1.store {}) (s'.1, s'.2.under s'.1.store {}) := by
  obtain ⟨writer, w⟩ := s
  obtain ⟨writer', w'⟩ := s'
  obtain rfl : writer' = writer := h.same
  exact h.under writer'.store {}

/-- An operation answers the same, whatever call of it fails. -/
theorem take (h : Lacks cfg q first s s') (step : Step) :
    (step.take s').1 = (step.take s).1 ∧ Lacks cfg q first (step.take s).2 (step.take s').2 := by
  have hunder := h.under s.1.store step.circumstances
  have hperform := step.action.mirrors_perform _ _ hunder
  have hstore : s'.1.store = s.1.store := congrArg Writer.store h.same
  rw [Step.take, Step.take, Writing.attempt, Writing.attempt, hstore]
  cases hx : step.action.perform (s.1, s.2.under s.1.store step.circumstances) with
  | ok a t =>
    obtain ⟨t', hx', ht⟩ := hperform.exists_of_ok hx
    rw [hx']
    exact ⟨rfl, ht.settle⟩
  | error e t =>
    obtain ⟨t', hx', ht⟩ := hperform.exists_of_error hx
    rw [hx']
    exact ⟨rfl, ht.settle⟩

theorem run (h : Lacks cfg q first s s') (steps : List Step) :
    answers steps s' = answers steps s ∧ (RecordLog.run steps s').1 = (RecordLog.run steps s).1 ∧
      Lacks cfg q first (RecordLog.run steps s).2 (RecordLog.run steps s').2 := by
  induction steps generalizing s s' with
  | nil => exact ⟨rfl, rfl, h⟩
  | cons step steps ih =>
    obtain ⟨hanswer, hnext⟩ := h.take step
    obtain ⟨hanswers, happended, hrun⟩ := ih hnext
    refine ⟨?_, ?_, hrun⟩
    · rw [answers, answers, hanswer, hanswers]
    · simp only [RecordLog.run, hanswer, happended]

end Writer.Lacks

end RecordLog
