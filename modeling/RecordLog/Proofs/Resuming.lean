import Mathlib
import RecordLog.Proofs.Recovery

/-!
# Going on from a position

A consumer goes on from a position that it kept. Where the chunk of a sealed segment is read from its
start, any position will do. The live segment is read from the position on, so that must not lie
inside one of its records; a position can come to lie there if it was told before the log was opened
again without the record that ended there.
-/

namespace RecordLog

open Record Segment

variable {cfg : Config} {l : Log} {id : StoreId} {w : World} {g : Ledger} {writer : Writer}

theorem Log.admits_of_records {start : Nat} (h : ∀ r ∈ l.records, r.segment = l.base →
    r.start < start → r.next ≤ start) : l.Admits start := by
  intro r hr
  refine h r ?_ (segment_of_mem_line hr)
  rw [Log.records, records_append, List.mem_append]
  right
  simpa [Segment.records, Log.base] using hr

/-- Whatever became of earlier writers and of what they appended, a scan from a position inside no
record of the live segment shows, of the records that one from the start does, those from there
on. -/
theorem Life.readFrom_filter (h : Life cfg (some writer) id w g) (hz : cfg.compressor.Lawful)
    (hc : cfg.cipher.Lawful) (hroom : Store.HasRoom id writer.buffer.stop w) :
    ∃ all, writer.reader.readFrom 0 w = (all, .done) ∧ ∀ start,
      (∀ r ∈ all, r.segment = writer.buffer.start → r.start < start → r.next ≤ start) →
        writer.reader.readFrom start w = (all.filter (start ≤ ·.start), .done) := by
  obtain ⟨q, l, c, hheld⟩ := h.held hz hc
  have hset := hheld.settled
  have hlist := hset.carries.listable (hheld.store ▸ hroom)
  have hall := filter_start_zero l.records
  refine ⟨l.records, hall ▸ hset.readFrom hlist (Log.boundary_of_told (.inl rfl)), ?_⟩
  intro start hstart
  rw [hset.carries.start_eq] at hstart
  exact hset.readFrom_of_admits hlist (Log.admits_of_records hstart)

/-- A payload was appended and lost with its writer, and the next writer appended a longer one in its
place and sealed the segment. From where the lost payload ended there is nothing to show. -/
theorem readFrom_filter_overtaken :
    ∃ lost s writer id w g, Life .plain (some lost) id s {} ∧
      (Step.take ⟨.append [1, 2] (by decide), {}⟩ (lost, s)).1 = .ok (some 3) ∧
      Life .plain (some writer) id w g ∧
      writer.reader.readFrom 0 w = ([⟨[0, 1, 2, 3, 4], 0, 0, 6⟩], .done) ∧
      writer.reader.readFrom 3 w = ([], .done) := by
  have hlost := Life.found World.sound_blank (World.Calm.returns rfl) (by decide) Founding.blank rfl
  obtain ⟨writer, w, hlife, hfacts⟩ := (hlost.act ⟨.append [1, 2] (by decide), {}⟩).drop.reopen
    (.refl _) (by decide) (.of_open (by decide +kernel)) (fun writer w =>
      let s := (run [⟨.append [0, 1, 2, 3, 4] (by decide), {}⟩, ⟨.sealLive, {}⟩] (writer, w)).2
      let shown := s.1.reader.readAmid 0 [] (fun _ => {}) s
      shown.records == [⟨[0, 1, 2, 3, 4], 0, 0, 6⟩] && shown.last == .done &&
        s.1.buffer.start == 6 && !s.2.stores[0]?.any (·.medium.inFile)) (by decide +kernel)
  have hlife := (hlife.act ⟨.append [0, 1, 2, 3, 4] (by decide), {}⟩).act ⟨.sealLive, {}⟩
  simp only [Bool.and_eq_true, beq_iff_eq, Bool.not_eq_true'] at hfacts
  obtain ⟨⟨⟨hrecords, hlast⟩, hstart⟩, hmemory⟩ := hfacts
  have hzero := Reader.readFrom_of_readAmid hrecords hlast
  obtain ⟨all, hall, hfrom⟩ := hlife.readFrom_filter Compressor.lawful_identity
    Cipher.lawful_identity (.of_memory hmemory)
  obtain rfl : _ = all := congrArg Prod.fst (hzero.symm.trans hall)
  refine ⟨_, _, _, _, _, _, hlost, by decide +kernel, hlife, hall, hfrom 3 fun r hr hseg => ?_⟩
  have hseg : r.segment = 6 := hseg.trans hstart
  rw [List.mem_singleton.1 hr] at hseg
  exact absurd hseg (by decide)

/-- While that segment is live, a scan from there shows a record that was never appended. -/
theorem lost_position_shows_phantom :
    ∃ lost s writer id w g, Life .plain (some lost) id s {} ∧
      (Step.take ⟨.append [1, 2] (by decide), {}⟩ (lost, s)).1 = .ok (some 3) ∧
      Life .plain (some writer) id w g ∧
      writer.reader.readFrom 0 w = ([⟨[0, 1, 2, 3, 4], 0, 0, 6⟩], .done) ∧
      writer.reader.readFrom 3 w = ([⟨[3], 0, 3, 5⟩], .done) := by
  have hlost := Life.found World.sound_blank (World.Calm.returns rfl) (by decide) Founding.blank rfl
  obtain ⟨writer, w, hlife, hfacts⟩ := (hlost.act ⟨.append [1, 2] (by decide), {}⟩).drop.reopen
    (.refl _) (by decide) (.of_open (by decide +kernel)) (fun writer w =>
      let s := (Step.take ⟨.append [0, 1, 2, 3, 4] (by decide), {}⟩ (writer, w)).2
      let shown := s.1.reader.readAmid 0 [] (fun _ => {}) s
      let shown' := s.1.reader.readAmid 3 [] (fun _ => {}) s
      shown.records == [⟨[0, 1, 2, 3, 4], 0, 0, 6⟩] && shown.last == .done &&
        shown'.records == [⟨[3], 0, 3, 5⟩] && shown'.last == .done) (by decide +kernel)
  simp only [Bool.and_eq_true, beq_iff_eq] at hfacts
  obtain ⟨⟨⟨hrecords, hlast⟩, hrecords'⟩, hlast'⟩ := hfacts
  exact ⟨_, _, _, _, _, _, hlost, by decide +kernel,
    hlife.act ⟨.append [0, 1, 2, 3, 4] (by decide), {}⟩,
    Reader.readFrom_of_readAmid hrecords hlast, Reader.readFrom_of_readAmid hrecords' hlast'⟩

end RecordLog
