import Mathlib
import RecordLog.Proofs.Refinement

/-!
# Scans are isolated from the writer

A scan belongs to the state in which it read the watermark. Where the segments are by the time they
are opened, and how far the log has come since, does not show.
-/

namespace RecordLog

open Record Segment

variable {cfg : Config} {id : StoreId} {w : World} {g : Ledger} {writer : Writer}

/-- Steps before the chunks are listed, before a segment is opened, and before the chunks are listed
again make no difference to a scan: it shows what one without them does. -/
theorem Life.shows_readAmid (h : Life cfg (some writer) id w g) (hz : cfg.compressor.Lawful)
    (hc : cfg.cipher.Lawful) {start : Nat} (hstart : start = 0 ∨ start ∈ g.records.map Prod.snd)
    (listing : List Step) (waits : Nat → Waits) {shown : Reader.Shown}
    (hshown : writer.reader.readAmid start listing waits (writer, w) = shown)
    (hroom : Store.HasRoom shown.after.1.store shown.after.1.buffer.stop shown.after.2) :
    shown.last = .done ∧ shown.stop = some writer.buffer.stop ∧
      writer.reader.readFrom start w = (shown.records, .done) ∧
      writer.Shows w (g.records.map Prod.fst) start shown.records := by
  obtain ⟨q, l, c, hheld⟩ := h.held hz hc
  have hpay : g.records.map Prod.fst = l.payloads := by
    rw [hheld.tells.records, map_told]
  have hbound : l.Boundary start := Log.boundary_of_told (hheld.tells.records ▸ hstart)
  obtain ⟨l', c', hfollows, hread⟩ := hheld.settled.readAmid hbound listing waits
  rw [hshown] at hfollows hread
  have hlater := hfollows.settled.carries.listable hroom
  have hlist := hfollows.listable (hfollows.store ▸ hlater)
  obtain ⟨hrecords, hlast, hstop⟩ := hread (hfollows.store ▸ hlater)
  rw [hpay, hrecords]
  exact ⟨hlast, hstop.trans (congrArg some hheld.settled.carries.stop_eq.symm),
    hheld.settled.readFrom hlist hbound, hheld.settled.shows hlist hbound⟩

/-- A payload is appended and the segment sealed before a scan opens it, and both do not show. -/
theorem shows_readAmid_sealed :
    ∃ writer id w g shown, Life .plain (some writer) id w g ∧ g.records = [([1, 2], 3)] ∧
      writer.reader.readAmid 0 [⟨.append [5] (by decide), {}⟩]
        (fun _ => { opening := [⟨.sealLive, {}⟩] }) (writer, w) = shown ∧
      shown.after.1.buffer.start = 5 ∧ shown.last = .done ∧
      writer.Shows w [[1, 2]] 0 shown.records := by
  obtain ⟨writer, w, hop, hrecords, hstart, hmemory⟩ : ∃ writer w,
      Writer.resume .plain 0 .blank = .ok writer w ∧
      let step : Step := ⟨.append [1, 2] (by decide), {}⟩
      let s := (step.take (writer, w.under writer.store {})).2
      let shown := s.1.reader.readAmid 0 [⟨.append [5] (by decide), {}⟩]
        (fun _ => { opening := [⟨.sealLive, {}⟩] }) s
      (step.action.appended (step.take (writer, w.under writer.store {})).1) = [([1, 2], 3)] ∧
        shown.after.1.buffer.start = 5 ∧
        shown.after.2.stores[shown.after.1.store]?.any (·.medium.inFile) = false :=
    ⟨_, _, rfl, by decide +kernel, by decide +kernel, by decide +kernel⟩
  have hlife := (Life.found World.sound_blank (World.Calm.returns rfl) (by decide) Founding.blank
    hop).act ⟨.append [1, 2] (by decide), {}⟩
  obtain ⟨hlast, -, -, hshows⟩ := hlife.shows_readAmid Compressor.lawful_identity
    Cipher.lawful_identity (.inl rfl) [⟨.append [5] (by decide), {}⟩]
    (fun _ => { opening := [⟨.sealLive, {}⟩] }) rfl (.of_memory hmemory)
  simp only [Ledger.after, hrecords] at hshows
  exact ⟨_, _, _, _, _, hlife, hrecords, rfl, hstart, hlast, hshows⟩

end RecordLog
