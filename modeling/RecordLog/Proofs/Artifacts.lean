import Mathlib
import RecordLog.Proofs.Agreement
import RecordLog.Proofs.Turns

/-!
# Chunks are for good

A chunk is named in the index once its file is complete. Whatever happens to the log from then on,
operations and openings that fail included, touches only files of segments behind all chunks, so the
chunk stays in the index as it is and its file keeps its bytes.
-/

namespace RecordLog

open Record Segment Moment

/-- The bytes of a log: one encoding after the other. -/
def Ledger.bytes (g : Ledger) : Bytes := contents (g.records.map Prod.fst)

/-- The file of a chunk has the length that the chunk says, and loading it gives the bytes of the log
that the chunk stands for. -/
structure Chunk.Archives (cfg : Config) (chunk : Chunk) (artifact log : Bytes) (w : World) :
    Prop where
  file : w.disk.readAll (cfg.locate chunk.file) = .ok artifact
  diskSize : artifact.length = chunk.diskSize
  load : ∃ content w', chunk.load cfg w = .ok content w' ∧ content.length = chunk.size ∧
    content = (log.take chunk.stop).drop chunk.start

variable {cfg : Config} {q : Place} {l : Log} {c : Catalog} {n n' : Moment} {id : StoreId}
  {w w' : World} {d d' : Disk} {p : Nat × Segment} {e : Nat × Chunk} {es : List (Nat × Chunk)}

namespace Segment

theorem exists_append_of_mem_placed {start : Nat} {ss : List Segment} (h : p ∈ placed start ss) :
    ∃ before after, ss = before ++ p.2 :: after ∧ p.1 = start + span before := by
  induction ss generalizing start with
  | nil => simp [placed] at h
  | cons s ss ih =>
    rw [placed, List.mem_cons] at h
    rcases h with rfl | h
    · exact ⟨[], ss, rfl, rfl⟩
    · obtain ⟨before, after, rfl, hstart⟩ := ih h
      exact ⟨s :: before, after, rfl, by rw [hstart, span_cons, Nat.add_assoc]⟩

theorem slice_of_mem_placed {ss : List Segment} (h : p ∈ placed 0 ss) (rest : Bytes) :
    ((contents (ss.flatMap Segment.payloads) ++ rest).take (p.1 + p.2.size)).drop p.1 =
      contents p.2.payloads := by
  obtain ⟨before, after, rfl, hstart⟩ := exists_append_of_mem_placed h
  have hbefore : p.1 = (contents (before.flatMap Segment.payloads)).length := by
    rw [hstart, Nat.zero_add, span_eq, length_contents]
  have hsize : p.2.size = (contents p.2.payloads).length := (length_contents _).symm
  rw [List.flatMap_append, List.flatMap_cons, contents_append, contents_append, List.append_assoc,
    List.append_assoc, hbefore, hsize, List.take_length_add_append, List.drop_left,
    List.take_left]

namespace Sealed

theorem sameFile (h : List.Forall₂ (Sealed cfg q d) (placed 0 l.sealed) es)
    (hm : World.Moves q id l.base w w') (he : e ∈ es) :
    Disk.SameFile q e.2.file w.disk w'.disk := by
  obtain ⟨p, hp, hsealed⟩ := exists_of_mem_right h he
  rw [hsealed.file]
  exact hm.same p.1 _ .chunk (lt_of_mem_placed h hp)

theorem archives {artifact rest : Bytes} {ss : List Segment} (h : Sealed cfg q w.disk p e)
    (hp : p ∈ placed 0 ss) (hq : w.disk.enter cfg.path = .ok q) (hw : w.Calm)
    (ha : w.disk.Holds (q ++ [e.2.file]) artifact) (hlen : artifact.length = e.2.diskSize) :
    e.2.Archives cfg artifact (contents (ss.flatMap Segment.payloads) ++ rest) w := by
  obtain ⟨w', hload⟩ := h.exists_load hq hw
  refine ⟨?_, hlen, _, w', hload, ?_, ?_⟩
  · rw [h.file] at ha ⊢
    exact Disk.readAll_of_holds hq (LogName.chunk p.1).plain h.reaches ha
  · rw [length_contents, h.size, Segment.size]
  · rw [h.stop, h.start]
    exact (slice_of_mem_placed hp rest).symm

end Sealed

end Segment

theorem Left.sameFile_enter {cfg' : Config} {capacity : Nat} {id' : StoreId} {g : Ledger}
    {op : Op Writer} (h : Left cfg q l c capacity id w g) (ha : cfg.Alike cfg')
    (hen : Entrance cfg' id w op id') (k : Circumstances) (he : e ∈ c.chunks.entries) :
    Ends op (w.under id k) (fun _ w' => Disk.SameFile q e.2.file w.disk w'.disk)
      fun _ w' => Disk.SameFile q e.2.file w.disk w'.disk := by
  obtain ⟨w₁, heq, hdisk, hfaults, hkeeps, -⟩ := h.enter_eq ha hen k
  have hr : w₁.Returns := fun hook f hf => k.returns hook f (hfaults ▸ hf)
  have hspec := Writer.ends_resume (hdisk.symm ▸ h.lies.alike ha) hkeeps hr
  have hsame {w' : World} (hm : World.Moves q id' l.base w₁ w') :
      Disk.SameFile q e.2.file w.disk w'.disk :=
    hdisk ▸ Sealed.sameFile (hdisk.symm ▸ h.lies.chunks) hm he
  refine ⟨fun hx => ?_, fun hx => ?_⟩
  · obtain ⟨-, -, -, -, -, hm⟩ := hspec.ok (heq ▸ hx)
    exact hsame hm
  · obtain ⟨-, hm, -⟩ := hspec.error (heq ▸ hx)
    exact hsame hm

theorem Left.disk_close {capacity : Nat} {g : Ledger} (h : Left cfg q l c capacity id w g)
    (hc : Store.close id w = .ok () w') : w'.disk = w.disk := by
  obtain ⟨s, hs, -⟩ := h.index
  rw [Store.close_eq hs] at hc
  cases hc
  rfl

theorem Turn.sameFile (h : Holds cfg q l c n) (ht : Turn cfg n n') (he : e ∈ c.chunks.entries) :
    Disk.SameFile q e.2.file n.world.disk n'.world.disk := by
  obtain ⟨capacity, hlies⟩ := h.lies
  cases ht with
  | act writer id w g step =>
    cases h with
    | held h =>
      obtain ⟨l', c', s₁, ho, hs₁, -⟩ := h.settled.take_outcome step
      have hm := ho.moves (h.settled.ready step.circumstances).carries
      have hsame := Sealed.sameFile hlies.chunks hm he
      rw [hs₁]
      exact hsame
  | drop writer id w g => exact .refl _ _ _
  | @close writer w w' id g hclose =>
    cases h with
    | held h =>
      have hdisk : w'.disk = w.disk := h.left.disk_close (h.store ▸ hclose)
      exact hdisk ▸ .refl _ _ _
  | @release id w w' g hclose =>
    cases h with
    | left h =>
      have hdisk : w'.disk = w.disk := h.disk_close hclose
      exact hdisk ▸ .refl _ _ _
  | @enter cfg' id id' w w' op writer g ha hsize hen k hop =>
    cases h with
    | left h =>
      have hsame : Disk.SameFile q e.2.file w.disk w'.disk :=
        (h.sameFile_enter ha hen k he).ok hop
      exact hsame
  | @stay cfg' id id' w w' op stop g ha hen k hop =>
    cases h with
    | left h =>
      have hsame : Disk.SameFile q e.2.file w.disk w'.disk :=
        (h.sameFile_enter ha hen k he).error hop
      exact hsame

theorem Turn.sameFiles (hz : cfg.compressor.Lawful) (hc : cfg.cipher.Lawful)
    (h : Holds cfg q l c n) (ht : Relation.ReflTransGen (Turn cfg) n n') :
    ∃ l' c', Holds cfg q l' c' n' ∧ c.chunks.entries <+: c'.chunks.entries ∧
      ∀ e ∈ c.chunks.entries, Disk.SameFile q e.2.file n.world.disk n'.world.disk := by
  induction ht with
  | refl => exact ⟨l, c, h, List.prefix_refl _, fun _ _ => .refl _ _ _⟩
  | tail _ hstep ih =>
    obtain ⟨l', c', h', hentries, hsame⟩ := ih
    obtain ⟨l'', c'', h'', ho⟩ := hstep.holds hz hc h'
    exact ⟨l'', c'', h'', hentries.trans ho.entries,
      fun e he => (hsame e he).trans (hstep.sameFile h' (hentries.subset he))⟩

namespace Moment.Holds

theorem tables (h : Holds cfg q l c n) :
    ∃ t, n.world.tables n.index = some t ∧ t.Represents c := by
  cases h with
  | @held writer id w g h =>
    obtain ⟨s, hs, -, -, hk⟩ := h.settled.carries.index
    exact h.store ▸ Store.tables_of_keeps hs hk
  | left h =>
    obtain ⟨s, hs, -, -, hk⟩ := h.index
    exact Store.tables_of_keeps hs hk

theorem bytes_eq (h : Holds cfg q l c n) :
    ∃ rest, n.ledger.bytes = contents (l.sealed.flatMap Segment.payloads) ++ rest := by
  cases h with
  | held h =>
    refine ⟨contents l.live.payloads, ?_⟩
    rw [Ledger.bytes, h.tells.records, map_told, Log.payloads, contents_append]
  | left h =>
    refine ⟨contents l.cut.live.payloads, ?_⟩
    rw [Ledger.bytes, h.tells.records, map_told, Log.payloads, contents_append]
    rfl

theorem archives (h : Holds cfg q l c n) (he : e ∈ c.chunks.entries) {artifact : Bytes}
    (ha : n.world.disk.Holds (q ++ [e.2.file]) artifact) (hlen : artifact.length = e.2.diskSize) :
    e.2.Archives cfg artifact n.ledger.bytes n.world := by
  obtain ⟨capacity, hlies⟩ := h.lies
  obtain ⟨p, hp, hsealed⟩ := exists_of_mem_right hlies.chunks he
  obtain ⟨rest, hbytes⟩ := h.bytes_eq
  rw [hbytes]
  exact hsealed.archives hp hlies.home h.calm ha hlen

end Moment.Holds

theorem Life.holds (h : Life cfg n.writer n.index n.world n.ledger) (hz : cfg.compressor.Lawful)
    (hc : cfg.cipher.Lawful) : ∃ q l c, Holds cfg q l c n := by
  obtain ⟨o, id, w, g⟩ := n
  cases o with
  | none =>
    obtain ⟨q, l, c, capacity, hleft⟩ := h.left hz hc
    exact ⟨q, l, c, .left hleft⟩
  | some writer =>
    obtain ⟨q, l, c, hheld⟩ := h.held hz hc
    exact ⟨q, l, c, .held hheld⟩

/-- Every chunk in the index of a log has its file and loads what the log has there. Whatever turns
follow, it stays in the index as it is, its file has the same bytes and it loads the same. -/
theorem Life.archives_kept (h : Life cfg n.writer n.index n.world n.ledger)
    (hz : cfg.compressor.Lawful) (hc : cfg.cipher.Lawful)
    (hturns : Relation.ReflTransGen (Turn cfg) n n') :
    ∃ t c t' c', n.world.tables n.index = some t ∧ t.Represents c ∧
      n'.world.tables n'.index = some t' ∧ t'.Represents c' ∧
      c.chunks.entries <+: c'.chunks.entries ∧
      ∀ e ∈ c.chunks.entries, ∃ artifact, e.2.Archives cfg artifact n.ledger.bytes n.world ∧
        e.2.Archives cfg artifact n'.ledger.bytes n'.world := by
  obtain ⟨q, l, c, hholds⟩ := h.holds hz hc
  obtain ⟨l', c', hholds', hentries, hsame⟩ := Turn.sameFiles hz hc hholds hturns
  obtain ⟨t, ht, hrep⟩ := hholds.tables
  obtain ⟨t', ht', hrep'⟩ := hholds'.tables
  refine ⟨t, c, t', c', ht, hrep, ht', hrep', hentries, fun e he => ?_⟩
  obtain ⟨capacity, hlies⟩ := hholds.lies
  obtain ⟨p, -, hsealed⟩ := exists_of_mem_right hlies.chunks he
  obtain ⟨artifact, ha, hlen, -⟩ := hsealed.artifact
  rw [← hsealed.file] at ha
  exact ⟨artifact, hholds.archives he ha hlen,
    hholds'.archives (hentries.subset he) ((hsame e he).holds ha) hlen⟩

/-- An append sealed the segment of the first payload and then failed. The next payload was lost with
its writer, and another one took its place behind the chunk. -/
theorem archives_kept_reopened :
    ∃ n n' t c t' c' e artifact, Life .plain n.writer n.index n.world n.ledger ∧
      Relation.ReflTransGen (Turn .plain) n n' ∧ n.world.tables n.index = some t ∧
      t.Represents c ∧ n'.world.tables n'.index = some t' ∧ t'.Represents c' ∧
      e ∈ c.chunks.entries ∧ e ∈ c'.chunks.entries ∧ e.2.start = 0 ∧ e.2.stop = 3 ∧
      n'.ledger.records = [([1, 2], 3), ([6], 5)] ∧
      e.2.Archives .plain artifact n.ledger.bytes n.world ∧
      e.2.Archives .plain artifact n'.ledger.bytes n'.world := by
  have hlife := ((Life.found World.sound_blank (World.Calm.returns rfl) (by decide) Founding.blank
    rfl).act ⟨.append [1, 2] (by decide), {}⟩).act ⟨.append [3, 4] (by decide), .unencodable⟩
  let lost : Step := ⟨.append [5] (by decide), {}⟩
  let next : Step := ⟨.append [6] (by decide), {}⟩
  obtain ⟨writer, w, g, hlife, htables, hopen, hrecords, hfacts⟩ :
      ∃ writer w g, Life .plain (some writer) 0 w g ∧
        (w.tables 0).any (fun t => !t.inFile && (t.answer .chunks).toOption.any
          (·.1.any fun chunk => chunk.start == 0 && chunk.stop == 3)) = true ∧
        (lost.take (writer, w)).2.2.stores[0]?.any (!·.closed) = true ∧
        (g.after lost.action (lost.take (writer, w)).1 writer (lost.take (writer, w)).2.1).cut.records =
          [([1, 2], 3)] ∧
        (Writer.resume .plain 0).passes (fun writer w =>
          next.action.appended (next.take (writer, w.under 0 {})).1 == [([6], 5)])
          ((lost.take (writer, w)).2.2.under 0 {}) = true :=
    ⟨_, _, _, hlife, by decide +kernel, by decide +kernel, by decide +kernel, by decide +kernel⟩
  obtain ⟨writer', w', hop, happended⟩ := Op.exists_of_passes hfacts
  have hturns : Relation.ReflTransGen (Turn .plain) ⟨some writer, 0, w, g⟩ _ :=
    .tail (.tail (.tail (.single (.act writer 0 w g lost)) (.drop _ _ _ _))
      (.enter _ (.refl _) (by decide) (.of_open hopen) {} hop)) (.act _ _ _ _ next)
  obtain ⟨t, c, t', c', ht, hrep, ht', hrep', hentries, harchives⟩ :=
    Life.archives_kept (n := ⟨some writer, 0, w, g⟩) hlife Compressor.lawful_identity
      Cipher.lawful_identity hturns
  rw [show w.tables 0 = some t from ht, Option.any_some] at htables
  cases t with
  | stored t => cases htables
  | plain c₀ =>
    obtain rfl : c₀ = c := hrep
    have hchunks : (c₀.chunks.values.any fun chunk => chunk.start == 0 && chunk.stop == 3) = true :=
      htables
    obtain ⟨chunk, hmem, hbounds⟩ := List.any_eq_true.1 hchunks
    obtain ⟨e, he, rfl⟩ := List.mem_map.1 hmem
    obtain ⟨artifact, hbefore, hafter⟩ := harchives e he
    rw [Bool.and_eq_true, beq_iff_eq, beq_iff_eq] at hbounds
    refine ⟨_, _, _, _, t', c', e, artifact, hlife, hturns, ht, rfl, ht', hrep', he,
      hentries.subset he, hbounds.1, hbounds.2, ?_, hbefore, hafter⟩
    change _ ++ _ = _
    rw [hrecords, beq_iff_eq.1 happended]
    rfl

end RecordLog
