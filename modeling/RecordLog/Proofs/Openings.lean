import Mathlib
import RecordLog.Proofs.CallByCall
import RecordLog.Proofs.SegmentFiles

/-!
# What a reader meets

A reader may be older than what is there of its log. The chunks that the index lists open all the
same, and a segment whose live file is gone is looked up among them, unless the index was closed.
-/

namespace RecordLog

open Record Segment

variable {cfg : Config} {q : Place} {l : Log} {c : Catalog} {r : Reader} {id : StoreId}
  {w w' : World} {start stop : Nat} {capacity : Nat}

theorem Log.Lies.listable (h : l.Lies cfg q capacity c w.disk) (hstop : l.base ≤ stop)
    (hroom : Store.HasRoom id stop w) : Store.Listable id c w := by
  intro s hs hf
  obtain ⟨hlt, hfiles⟩ := hroom s hs hf
  exact small_of_forall₂ h.chunks (hstop.trans_lt hlt) hfiles

/-- What there is for a reader: a log in its folder, and the index of that, which may be closed. -/
structure Reader.Meets (r : Reader) (q : Place) (l : Log) (c : Catalog) (w : World) : Prop where
  calm : w.Calm
  cipher : r.config.cipher.Lawful
  lies : ∃ capacity, l.Lies r.config q capacity c w.disk
  index : Store.Shut r.store w ∨ Store.Keeps q r.store c w ∧ Store.Listable r.store c w

namespace Reader.Meets

theorem idle (h : r.Meets q l c w) (hi : World.Idle w w') : r.Meets q l c w' where
  calm := hi.calm h.calm
  cipher := h.cipher
  lies := by
    rw [hi.disk]
    exact h.lies
  index := by
    rcases h.index with hshut | ⟨hkeeps, hlist⟩
    · exact .inl ((Store.shut_idle hi).2 hshut)
    · exact .inr ⟨hkeeps.idle hi, hlist.idle hi⟩

variable {z : (Nat × Segment) × (Nat × Chunk)}

theorem openChunk (h : r.Meets q l c w) (start : Nat)
    (hz : z ∈ (placed 0 l.sealed).zip c.chunks.entries) {ps : List Bytes}
    (hpre : ps <+: z.1.2.payloads) (hstop : min stop z.2.2.stop = z.1.1 + extent ps) :
    Ends (r.openChunk z.2.2 stop) w
      (fun cur w' => cur.drain start = ((line z.1.1 z.1.1 ps).filter (start ≤ ·.start), none) ∧
        World.Idle w w')
      fun _ _ => False := by
  obtain ⟨capacity, hlies⟩ := h.lies
  have hsealed := List.forall₂_zip hlies.chunks hz
  refine (Reader.ends_openChunk hlies.home hsealed hpre hstop).mono ?_ ?_
  · rintro cur w' ⟨hcur, hi⟩
    exact ⟨hcur.drain (fun x hx => hsealed.writable x (hpre.subset hx)) start, hi⟩
  · rintro _ _ ⟨-, hnot⟩
    exact hnot h.calm

theorem openChunk_upTo (h : r.Meets q l c w) (start : Nat)
    (hz : z ∈ (placed 0 l.sealed).zip c.chunks.entries) (hle : z.1.1 ≤ stop) :
    Ends (r.openChunk z.2.2 stop) w
      (fun cur w' => cur.drain start = (((line z.1.1 z.1.1 z.1.2.payloads).filter
        (·.next ≤ stop)).filter (start ≤ ·.start), none) ∧ World.Idle w w')
      fun _ _ => False := by
  obtain ⟨capacity, hlies⟩ := h.lies
  refine (ends_openChunk_upTo hlies.home (List.forall₂_zip hlies.chunks hz) hle).mono ?_ ?_
  · rintro cur w' ⟨hdrain, hi⟩
    exact ⟨hdrain start, hi⟩
  · rintro _ _ ⟨-, hnot⟩
    exact hnot h.calm

section missing

variable {m : Watermark} {rs : List Record} (h : r.Meets q l c w)
  (hz : z ∈ (placed 0 l.sealed).zip c.chunks.entries) (hstart : z.1.1 = m.start)
  (hopen : ∀ w', World.Idle w w' → Ends (r.openChunk z.2.2 stop) w'
    (fun cur w'' => cur.drain start = (rs, none) ∧ World.Idle w' w'') fun _ _ => False)
include h hz hstart hopen

theorem relist (e : Error) :
    Ends (do
        match (← r.chunks).find? (·.start = m.start) with
        | some chunk => r.openChunk chunk stop
        | none => Op.fail e) w
      (fun cur w' => cur.drain start = (rs, none) ∧ World.Idle w w')
      fun e w' => e = .error .closed ∧ Store.Shut r.store w ∧ World.Idle w w' := by
  rcases h.index with hshut | ⟨hkeeps, hlist⟩
  · refine (Store.ends_request_of_shut hshut h.calm .chunks).bind (fun _ _ hF => hF.elim) ?_
    rintro stop w' ⟨rfl, hi⟩
    exact ⟨rfl, hshut, hi⟩
  · refine (Reader.ends_chunks hkeeps.offers).bind ?_ ?_
    · rintro _ w₁ ⟨rfl, hi⟩
      obtain ⟨capacity, hlies⟩ := h.lies
      have hfind := find?_of_mem_zip hlies.chunks hz
      rw [hstart] at hfind
      have hfind' : c.chunks.values.find? (fun chunk => decide (chunk.start = m.start)) =
          some z.2.2 := hfind
      rw [hfind']
      refine (hopen w₁ hi).mono ?_ fun _ _ hF => hF.elim
      rintro cur w' ⟨hdrain, hi'⟩
      exact ⟨hdrain, hi.trans hi'⟩
    · rintro stop w' ⟨-, -, hnot⟩
      exact absurd hlist (hnot h.calm)

theorem opens_of_missing (hreach : r.config.Reaches (bufferFileName m.start))
    (hnone : w.disk.names.get? (q ++ [bufferFileName m.start]) = none) :
    r.Opens start stop (.live m) rs w := by
  obtain ⟨capacity, hlies⟩ := h.lies
  have hmissing := Reader.openLive_of_missing hlies.home hreach start hnone
  refine Ends.catch_stop (F := fun e w' => e = .error (.io "open live buffer" IoCause.noEntry) ∧
    w' = w) (ends_of_eq_error hmissing ⟨rfl, rfl⟩) ?_
  rintro _ _ ⟨rfl, rfl⟩
  exact h.relist hz hstart hopen _

end missing

end Reader.Meets

end RecordLog
