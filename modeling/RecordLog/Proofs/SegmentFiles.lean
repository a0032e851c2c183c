import Mathlib
import RecordLog.Proofs.Planning
import RecordLog.Proofs.Reopening

/-!
# Where a segment is found

Each segment of a log is there in its live file, or that is gone and the index lists the chunk that
took its place, under the same position. No two segments that are sealed start at one position, so
looking a position up among the chunks finds the right one.
-/

namespace RecordLog

open Record Segment

variable {cfg : Config} {q : Place} {d : Disk} {l l' : Log} {c c' : Catalog} {capacity : Nat}

namespace Segment

theorem exists_of_mem_zip {start : Nat} {ss : List Segment} {es : List (Nat × Chunk)}
    (h : List.Forall₂ (Sealed cfg q d) (placed start ss) es) {p : Nat × Segment}
    (hp : p ∈ placed start ss) : ∃ e, (p, e) ∈ (placed start ss).zip es := by
  rw [← List.map_fst_zip (Nat.le_of_eq h.length_eq)] at hp
  obtain ⟨⟨p, e⟩, hz, rfl⟩ := List.mem_map.1 hp
  exact ⟨e, hz⟩

theorem find?_of_mem_zip {start : Nat} {ss : List Segment} {es : List (Nat × Chunk)}
    (h : List.Forall₂ (Sealed cfg q d) (placed start ss) es) {z : (Nat × Segment) × (Nat × Chunk)}
    (hz : z ∈ (placed start ss).zip es) :
    (es.map Prod.snd).find? (fun chunk => decide (chunk.start = z.1.1)) = some z.2.2 := by
  induction ss generalizing start es with
  | nil => cases hz
  | cons s ss ih =>
    obtain ⟨e, es, he, hrest, rfl⟩ := List.forall₂_cons_left_iff.1 h
    have hsize := he.size_pos
    rw [placed, List.zip_cons_cons, List.mem_cons] at hz
    rcases hz with rfl | hz
    · exact List.find?_cons_of_pos (decide_eq_true he.start)
    · have hle := (bounds_of_mem_placed (List.of_mem_zip hz).1).1
      have hne : e.2.start ≠ z.1.1 := by
        rw [he.start]
        dsimp only at hsize ⊢
        omega
      rw [List.map_cons, List.find?_cons_of_neg (by simpa using hne)]
      exact ih hrest hz

end Segment

namespace Log

theorem Grows.mem_zip (h : l.Grows l') {es es' : List (Nat × Chunk)}
    (hlen : (placed 0 l.sealed).length = es.length) (hes : es <+: es')
    {z : (Nat × Segment) × (Nat × Chunk)} (hz : z ∈ (placed 0 l.sealed).zip es) :
    z ∈ (placed 0 l'.sealed).zip es' := by
  obtain ⟨es, rfl⟩ := hes
  obtain ⟨ss, hss⟩ : l.sealed <+: l'.sealed := by
    rcases h.cases with ⟨he, -, -⟩ | ⟨s', rest, he, -, -⟩
    · rw [he]
    · exact ⟨_, he.symm⟩
  rw [← hss, placed_append, List.zip_append hlen]
  exact List.mem_append_left _ hz

namespace Lies

theorem segment (h : l.Lies cfg q capacity c d) {ss rest : List Segment} {s : Segment}
    (heq : l.sealed ++ [l.live] = ss ++ s :: rest) :
    (∀ x ∈ s.payloads, Writable x) ∧ cfg.Reaches (bufferFileName (span ss)) ∧
      ((∃ bytes, d.Holds (q ++ [bufferFileName (span ss)]) bytes ∧
          Written cfg.cipher ⟨span ss, s.salt⟩ 0 (s.payloads.map encode) bytes) ∨
        d.names.get? (q ++ [bufferFileName (span ss)]) = none ∧
          ∃ e, ((span ss, s), e) ∈ (placed 0 l.sealed).zip c.chunks.entries) := by
  rcases List.eq_nil_or_concat rest with rfl | ⟨rest, s', rfl⟩
  · obtain ⟨rfl, hs⟩ := List.append_inj' heq rfl
    obtain rfl : l.live = s := List.singleton_inj.1 hs
    exact ⟨h.writable, h.reaches, .inl h.live⟩
  · rw [List.concat_eq_append, ← List.cons_append, ← List.append_assoc] at heq
    obtain ⟨hs, -⟩ := List.append_inj' heq rfl
    have hmem : (span ss, s) ∈ placed 0 l.sealed := by
      rw [hs, placed_append, Nat.zero_add, placed]
      simp
    obtain ⟨e, hz⟩ := exists_of_mem_zip h.chunks hmem
    have hsealed := List.forall₂_zip h.chunks hz
    refine ⟨hsealed.writable, hsealed.liveReaches, ?_⟩
    rcases hsealed.left with hnone | hheld
    · exact .inr ⟨hnone, e, hz⟩
    · exact .inl hheld

/-- What is there of a segment that was live: its file, perhaps with more in it, or else its chunk. -/
theorem live_or_sealed (h : l'.Lies cfg q capacity c d) (hg : l.Grows l') :
    cfg.Reaches (bufferFileName l.base) ∧
      ((∃ bytes more, d.Holds (q ++ [bufferFileName l.base]) bytes ∧
          Written cfg.cipher l.watermark.id 0 ((l.live.payloads ++ more).map encode) bytes) ∨
        d.names.get? (q ++ [bufferFileName l.base]) = none ∧
          ∃ z ∈ (placed 0 l'.sealed).zip c.chunks.entries, z.1.1 = l.base ∧
            l.live.payloads <+: z.1.2.payloads) := by
  obtain ⟨s, rest, heq, hsalt, more, hmore⟩ := hg
  obtain ⟨-, hreach, ⟨bytes, hb, hw⟩ | ⟨hnone, e, hz⟩⟩ := h.segment heq
  · rw [← hmore, hsalt] at hw
    exact ⟨hreach, .inl ⟨bytes, more, hb, hw⟩⟩
  · exact ⟨hreach, .inr ⟨hnone, _, hz, rfl, more, hmore⟩⟩

end Lies

end Log

end RecordLog
