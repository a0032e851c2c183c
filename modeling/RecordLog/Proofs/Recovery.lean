import Mathlib
import RecordLog.Proofs.Refinement

/-!
# What is there when a log is opened again

However often a log was left and opened, and whatever failed, opening it goes back to what the last
checkpoint or the last sealed segment made durable, and to nothing else.
-/

namespace RecordLog

open Record Segment

variable {cfg cfg' : Config} {q : Place} {l : Log} {c : Catalog} {capacity : Nat} {id id' : StoreId}
  {w w' : World} {g : Ledger} {op : Op Writer} {writer : Writer}

/-- A writer has what a ledger says, and goes on from there. -/
structure Recovered (g : Ledger) (writer : Writer) (w : World) : Prop where
  stop : writer.buffer.stop = g.durable
  records : ∃ records, writer.reader.readFrom 0 w = (records, .done) ∧
    writer.Shows w (g.records.map Prod.fst) 0 records
  /-- The live file is as long as the index says. -/
  file : ∃ f, w.disk.find (writer.config.locate writer.buffer.file) = .ok (.file f) ∧
    (w.disk.content f).size = writer.buffer.pos
  described : ∃ w', Store.read writer.store (Program.request .buffer) w =
    .ok (some writer.buffer.state) w'
  stats : writer.stats = g.stats
  names : ∀ name, ∃ w', writer.getCheckpoint name w = .ok (g.names.get? name) w'
  appends : ∀ steps, (run steps (writer, w)).1 =
    told g.durable ((run steps (writer, w)).1.map Prod.fst)

theorem Store.read_eq_ok (hk : Keeps q id c w) (h : w.Calm) (hl : Legible id c w) {r : Request}
    {a : r.Answer} (ha : ∃ c', c.answer r = .ok (a, c')) :
    ∃ w', read id (Program.request r) w = .ok a w' := by
  have hread := ends_request hk.offers r
  cases hx : read id (Program.request r) w with
  | ok a' w' =>
    obtain ⟨-, c'', ha'⟩ := hread.ok hx
    obtain ⟨c', ha⟩ := ha
    rw [ha] at ha'
    cases ha'
    exact ⟨w', rfl⟩
  | error stop w' =>
    refine absurd (fun s hs hf => ?_) ((hread.error hx).2.2 h)
    have hsmall := hl s hs hf
    cases r with
    | buffer => exact hsmall.buffer
    | stats => exact hsmall.stats
    | chunks => exact hsmall.chunks
    | _ => trivial

theorem BufferState.small_of_stop {b : BufferState} (hstop : b.stop < 2 ^ 64)
    (hcap : b.capacity < 2 ^ 64) (hrec : b.records ≤ b.pos) (hfile : b.file.utf8ByteSize ≤ 255) :
    b.Small := by
  have : b.start + b.pos < 2 ^ 64 := hstop
  exact ⟨by omega, by omega, hcap, by omega, by omega⟩

namespace Left

theorem legible (h : Left cfg q l c capacity id w g) (hroom : Store.HasRoom id g.durable w) :
    Store.Legible id c w := by
  intro s hs hf
  obtain ⟨hstop, hfiles⟩ := hroom s hs hf
  rw [h.tells.durable, Log.durable, Log.cut_cut] at hstop
  refine ⟨fun b hb => ?_, h.keptStats, small_of_forall₂ h.lies.chunks ?_ hfiles⟩
  · rw [h.lies.described] at hb
    cases hb
    exact BufferState.small_of_stop hstop h.bufferSize (length_le_extent _) h.lies.reaches.short
  · exact (Nat.le_add_right l.base l.cut.live.size).trans_lt hstop

end Left

theorem Settled.recovered (h : Settled q l c (writer, w)) (hcut : l.cut = l) (ht : g.Tells l c)
    (hl : Store.Legible writer.store c w) (hstats : writer.stats = c.stats.getD {}) :
    Recovered g writer w where
  stop := by
    rw [ht.durable, Log.durable, hcut]
    exact h.carries.stop_eq
  records := by
    have hlist : Store.Listable writer.store c w := fun s hs hf => (hl s hs hf).chunks
    have hzero : l.Boundary 0 := Log.boundary_of_told (.inl rfl)
    refine ⟨_, h.readFrom hlist hzero, ?_⟩
    rw [ht.records, map_told]
    exact h.shows hlist hzero
  file := by
    obtain ⟨x, hx, -⟩ := h.carries.file.written
    refine ⟨writer.buffer.handle, ?_, ?_⟩
    · rw [h.carries.file_eq, Disk.find_of_reaches h.carries.home (LogName.live l.base).plain
        h.carries.reaches, show w.disk.names.get? _ = _ from h.carries.linked]
    · rw [hx]
      exact h.carries.file.size_eq hx
  described := by
    have hstate : writer.buffer.state = l.state writer.buffer.capacity := h.carries.state
    have hdescribed : c.buffer = some (l.cut.state writer.buffer.capacity) := h.carries.described
    refine Store.read_eq_ok h.carries.index h.calm hl ⟨c, ?_⟩
    rw [hstate, ← hcut, ← hdescribed]
    rfl
  stats := hstats.trans ht.stats.symm
  names name := by
    refine Store.read_eq_ok h.carries.index h.calm hl ⟨c, ?_⟩
    rw [ht.names]
    rfl
  appends steps := by
    obtain ⟨-, -, -, htold, -⟩ := h.run steps
    rw [ht.durable, Log.durable, hcut]
    exact htold

/-- Every way back to a log succeeds if nothing is made to fail, and leads to what was durable. -/
theorem Life.recovered_of_enter (h : Life cfg none id w g) (hz : cfg.compressor.Lawful)
    (hc : cfg.cipher.Lawful) (ha : cfg.Alike cfg') (he : Entrance cfg' id w op id')
    (hroom : Store.HasRoom id g.durable w) :
    ∃ writer w', op w = .ok writer w' ∧ writer.config = cfg' ∧ Recovered g writer w' := by
  obtain ⟨q, l, c, capacity, hleft⟩ := h.left hz hc
  obtain ⟨s, hs, -, hfail, -⟩ := hleft.index
  have hself : w.under id {} = w := World.under_eq_self hleft.calm fun s' hs' => by
    rw [hs] at hs'
    cases hs'
    exact hfail
  have hopen := hself ▸ hleft.ends_enter ha he {}
  have hlegible := hleft.legible hroom
  cases hx : op w with
  | error stop w' => exact absurd hlegible ((hopen.error hx).2.2.2 rfl rfl)
  | ok writer w' =>
    obtain ⟨rfl, rfl, hstats, -, hcar, -, hinFile, hsame⟩ := hopen.ok hx
    have hset : Settled q l.cut c (writer, w') := by
      have := Settled.of_carries hcar (ha.compressor ▸ hz) (ha.cipher ▸ hc)
      rwa [hsame rfl rfl] at this
    refine ⟨writer, w', rfl, rfl, hset.recovered (Log.cut_cut l) hleft.tells (fun s' hs' hf => ?_) hstats⟩
    exact hlegible s hs ((hinFile s s' hs hs').symm.trans hf)

theorem Entrance.of_open {cfg : Config} (h : w.stores[id]?.any (!·.closed) = true) :
    Entrance cfg id w (Writer.resume cfg id) id := by
  cases hs : w.stores[id]? with
  | none => simp [hs] at h
  | some s => exact .shared hs (by simpa [hs] using h)

/-- An opening that can be carried out gives the log another writer, with what can be checked of
it. -/
theorem Life.reopen (h : Life cfg none id w g) (ha : cfg.Alike cfg')
    (hsize : cfg'.capacity < 2 ^ 64) (he : Entrance cfg' id w op id') (p : Writer → World → Bool)
    (hp : op.passes (fun writer w' => p writer (w'.under id' {})) (w.under id {}) = true) :
    ∃ writer w', Life cfg (some writer) id' w' g ∧ p writer w' = true := by
  obtain ⟨writer, w', hop, hp⟩ := Op.exists_of_passes hp
  exact ⟨writer, _, h.enter ha hsize he {} hop, hp⟩

/-- Two payloads were appended, and the segment was sealed between them. -/
theorem recovered_first_of_two :
    ∃ id w g writer w', Life .plain none id w g ∧ g.records = [([1, 2], 3)] ∧ g.durable = 3 ∧
      Writer.resume { Config.plain with capacity := 9 } id w = .ok writer w' ∧
      Recovered g writer w' := by
  have hlife := ((((Life.found World.sound_blank (World.Calm.returns rfl) (by decide) Founding.blank
    rfl).act ⟨.append [1, 2] (by decide), {}⟩).act ⟨.sealLive, {}⟩).act
      ⟨.append [5] (by decide), {}⟩).drop
  have halike : Config.plain.Alike { Config.plain with capacity := 9 } := ⟨rfl, rfl, rfl⟩
  obtain ⟨writer, w', hop, -, hrec⟩ := hlife.recovered_of_enter Compressor.lawful_identity
    Cipher.lawful_identity halike (.of_open (by decide +kernel)) (.of_memory (by decide +kernel))
  exact ⟨_, _, _, writer, w', hlife, by decide +kernel, by decide +kernel, hop, hrec⟩

end RecordLog
