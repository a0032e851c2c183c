import Mathlib
import RecordLog.Proofs.Openings
import RecordLog.Proofs.Turns

/-!
# Watermarks of writers that went

When a writer goes its watermark stays as it was, while the segment it was of may be cut back, be
written anew and be sealed, and further segments may come to lie below the watermark. A scan lists
the chunks that start there. The segment that was live is listed in addition if none of them does,
and once more if there are two or more, since only the last one is looked at for it.
-/

namespace RecordLog

open Record Segment

variable {cfg : Config} {q : Place} {l l' : Log} {c : Catalog} {m : Watermark} {n n' : Moment}
  {i : MarkId} {id : StoreId} {w : World} {g : Ledger} {writer : Writer} {capacity : Nat}

/-- The segment that a watermark is of, which is live or was sealed. -/
inductive Log.Had (l : Log) (m : Watermark) : Prop where
  | live (hstart : m.start = l.base) (hsalt : m.salt = l.live.salt)
  | sealed {ss rest : List Segment} {s : Segment} (hs : l.sealed = ss ++ s :: rest)
      (hstart : m.start = span ss) (hsalt : m.salt = s.salt)

namespace Log.Had

theorem grows (h : l.Had m) (hg : l.cut.Grows l'.cut) : l'.Had m := by
  have hcases := hg.cases
  cases h with
  | live hstart hsalt =>
    rcases hcases with ⟨hs, hsalt', -⟩ | ⟨s, rest, hs, hsalt', -⟩
    · have hs : l'.sealed = l.sealed := hs
      exact .live (by rw [hstart, base, base, hs]) (hsalt.trans hsalt'.symm)
    · exact .sealed hs hstart (hsalt.trans hsalt'.symm)
  | @sealed ss rest s hs hstart hsalt =>
    rcases hcases with ⟨hs', -, -⟩ | ⟨s', rest', hs', -, -⟩
    · have hs' : l'.sealed = l.sealed := hs'
      exact .sealed (hs'.trans hs) hstart hsalt
    · have hs' : l'.sealed = l.sealed ++ s' :: rest' := hs'
      rw [hs, List.append_assoc, List.cons_append] at hs'
      exact .sealed hs' hstart hsalt

end Log.Had

theorem Segment.filter_records {ss rest : List Segment} {s : Segment}
    (hpos : ∀ p ∈ placed 0 (ss ++ s :: rest), 0 < p.2.size) :
    (records 0 (ss ++ s :: rest)).filter (·.segment = span ss) =
      line (span ss) (span ss) s.payloads := by
  have hsize : 0 < s.size := by
    refine hpos (span ss, s) ?_
    rw [placed_append, Nat.zero_add, placed]
    exact List.mem_append_right _ List.mem_cons_self
  have hbefore : (records 0 ss).filter (·.segment = span ss) = [] := by
    refine List.filter_eq_nil_iff.2 fun r hr => ?_
    rw [records_eq_flatMap, List.mem_flatMap] at hr
    obtain ⟨p, hp, hr⟩ := hr
    have h₁ := hpos p (by rw [placed_append]; exact List.mem_append_left _ hp)
    have h₂ := (bounds_of_mem_placed hp).2
    rw [segment_of_mem_line hr, decide_eq_true_eq]
    omega
  have hafter : (records (span ss + s.size) rest).filter (·.segment = span ss) = [] := by
    refine List.filter_eq_nil_iff.2 fun r hr => ?_
    rw [records_eq_flatMap, List.mem_flatMap] at hr
    obtain ⟨p, hp, hr⟩ := hr
    have := (bounds_of_mem_placed hp).1
    rw [segment_of_mem_line hr, decide_eq_true_eq]
    omega
  have hsame : (line (span ss) (span ss) s.payloads).filter (·.segment = span ss) =
      line (span ss) (span ss) s.payloads :=
    List.filter_eq_self.2 fun r hr => decide_eq_true (segment_of_mem_line hr)
  rw [records_append, Nat.zero_add, records, List.filter_append, List.filter_append, hbefore, hsame,
    hafter, List.nil_append, List.append_nil]

/-- A segment that a plan lists for a watermark, with its records below that. -/
inductive Log.Bears (l : Log) (c : Catalog) (m : Watermark) : Source → List Record → Prop where
  | chunk {z : (Nat × Segment) × (Nat × Chunk)}
      (hz : z ∈ (placed 0 l.sealed).zip c.chunks.entries) (hle : z.1.1 ≤ m.stop) :
      Bears l c m (.chunk z.2.2) ((line z.1.1 z.1.1 z.1.2.payloads).filter (·.next ≤ m.stop))
  | live {ss rest : List Segment} {s : Segment} (heq : l.sealed ++ [l.live] = ss ++ s :: rest)
      (hstart : m.start = span ss) (hsalt : m.salt = s.salt) (hpos : 0 < m.pos) :
      Bears l c m (.live m) ((line m.start m.start s.payloads).filter (·.next ≤ m.stop))

section plans

variable {d : Disk} (hchunks : List.Forall₂ (Sealed cfg q d) (placed 0 l.sealed) c.chunks.entries)
include hchunks

theorem Log.exists_parts_of_chunks (m : Watermark) :
    ∃ parts, List.Forall₂ (l.Bears c m)
        ((c.chunks.values.filter (Plan.wants 0 m.stop)).map .chunk) parts ∧
      parts.flatten = (Segment.records 0 l.sealed).filter (·.next ≤ m.stop) := by
  have hwanted : ∀ z ∈ (placed 0 l.sealed).zip c.chunks.entries,
      Plan.wants 0 m.stop z.2.2 = true → l.Bears c m (.chunk z.2.2)
        ((line z.1.1 z.1.1 z.1.2.payloads).filter (·.next ≤ m.stop)) := by
    intro z hz hw
    simp only [Plan.wants, Bool.and_eq_true, decide_eq_true_eq] at hw
    rw [(List.forall₂_zip hchunks hz).start] at hw
    exact .chunk hz (Nat.le_of_lt hw.2)
  have hunwanted : ∀ z ∈ (placed 0 l.sealed).zip c.chunks.entries,
      ¬ Plan.wants 0 m.stop z.2.2 = true →
        (line z.1.1 z.1.1 z.1.2.payloads).filter (·.next ≤ m.stop) = [] := by
    intro z hz hw
    have hsealed := List.forall₂_zip hchunks hz
    have hsize := hsealed.size_pos
    refine List.filter_eq_nil_iff.2 fun r hr => ?_
    have := bounds_of_mem_line hr
    simp only [Plan.wants, hsealed.start, hsealed.stop, Bool.and_eq_true, decide_eq_true_eq] at hw ⊢
    omega
  obtain ⟨parts, hparts, hflat⟩ := Plan.exists_parts _ hwanted hunwanted
  refine ⟨parts, ?_, ?_⟩
  · rw [← map_snd_zip hchunks] at hparts
    exact hparts
  · rw [hflat, records_eq_flatMap, List.filter_flatMap, ← flatMap_zip hchunks]

/-- A segment that was sealed since is listed as live if another chunk starts below the watermark. -/
theorem Plan.sources_of_old {ss rest : List Segment} {s : Segment} (hs : l.sealed = ss ++ s :: rest)
    (hstart : m.start = span ss) (hpos : 0 < m.pos) :
    (build m c.chunks.values 0).sources =
      (c.chunks.values.filter (wants 0 m.stop)).map .chunk ++
        if 2 ≤ c.chunks.values.countP m.covers then [.live m] else [] := by
  have hmstop : m.stop = m.start + m.pos := rfl
  have hsplit := hchunks
  rw [hs, placed_append, Nat.zero_add, placed] at hsplit
  obtain ⟨es₁, es₂, hes, h₁, h₂⟩ := forall₂_append_left hsplit
  obtain ⟨e, es₂, he, h₃, rfl⟩ := List.forall₂_cons_left_iff.1 h₂
  have hvalues : c.chunks.values = es₁.map Prod.snd ++ e.2 :: es₂.map Prod.snd := by
    change c.chunks.entries.map Prod.snd = _
    rw [hes, List.map_append, List.map_cons]
  have hfront : ∀ x ∈ es₁.map Prod.snd, x.start < m.start := by
    intro x hx
    obtain ⟨e', he', rfl⟩ := List.mem_map.1 hx
    obtain ⟨p, hp, hpe⟩ := exists_of_mem_right h₁ he'
    rw [hpe.start, hstart]
    exact lt_of_mem_placed h₁ hp
  have hsize := he.size_pos
  dsimp only at hsize
  have hrest : ∀ x ∈ es₂.map Prod.snd, m.start < x.start := by
    intro x hx
    obtain ⟨e', he', rfl⟩ := List.mem_map.1 hx
    obtain ⟨p, hp, hpe⟩ := exists_of_mem_right h₃ he'
    have := (bounds_of_mem_placed hp).1
    rw [hpe.start]
    omega
  have hstop : ∀ x ∈ e.2 :: es₂.map Prod.snd, 0 < x.stop := by
    intro x hx
    have hmem : x ∈ c.chunks.values := hvalues ▸ List.mem_append_right _ hx
    obtain ⟨e', he', rfl⟩ := List.mem_map.1 hmem
    obtain ⟨p, hp, hpe⟩ := exists_of_mem_right hchunks he'
    have := hpe.size_pos
    rw [hpe.stop]
    omega
  exact sources_of_since hvalues hfront (he.start.trans hstart.symm) hrest hstop (by omega) hpos

section parts

variable {parts : List (List Record)}
  (hparts : List.Forall₂ (l.Bears c m)
    ((c.chunks.values.filter (Plan.wants 0 m.stop)).map .chunk) parts)
  (hflat : parts.flatten = (Segment.records 0 l.sealed).filter (·.next ≤ m.stop))
include hparts hflat

theorem Log.exists_parts_of_live (hstart : m.start = l.base) (hsalt : m.salt = l.live.salt) :
    c.chunks.values.countP m.covers = 0 ∧ ∃ all,
      List.Forall₂ (l.Bears c m) (Plan.build m c.chunks.values 0).sources all ∧
      all.flatten = (Segment.records 0 (l.sealed ++ [l.live])).filter (·.next ≤ m.stop) := by
  have hmstop : m.stop = m.start + m.pos := rfl
  have hbefore : ∀ chunk ∈ c.chunks.values, chunk.start < m.start := by
    intro chunk hchunk
    obtain ⟨e, he, rfl⟩ := List.mem_map.1 hchunk
    obtain ⟨p, hp, hpe⟩ := exists_of_mem_right hchunks he
    rw [hpe.start, hstart]
    exact lt_of_mem_placed hchunks hp
  have hall : (Segment.records 0 (l.sealed ++ [l.live])).filter (·.next ≤ m.stop) =
      (Segment.records 0 l.sealed).filter (·.next ≤ m.stop) ++
        (line m.start m.start l.live.payloads).filter (·.next ≤ m.stop) := by
    rw [records_append, List.filter_append, hstart]
    simp [Segment.records, base]
  refine ⟨List.countP_eq_zero.2 fun chunk hchunk => ?_, ?_⟩
  · have := hbefore chunk hchunk
    simp only [Watermark.covers, Bool.and_eq_true, decide_eq_true_eq]
    omega
  rw [Plan.sources_of_before hbefore, hall, ← hflat]
  by_cases hpos : 0 < m.pos
  · rw [if_pos ⟨by omega, hpos⟩]
    refine ⟨parts ++ [_], List.rel_append hparts (.cons (.live rfl hstart hsalt hpos) .nil), ?_⟩
    rw [List.flatten_append, List.flatten_singleton]
  · rw [if_neg fun hlive => hpos hlive.2, List.append_nil]
    have hnone : (line m.start m.start l.live.payloads).filter (·.next ≤ m.stop) = [] := by
      refine List.filter_eq_nil_iff.2 fun r hr => ?_
      have := bounds_of_mem_line hr
      simp only [decide_eq_true_eq]
      omega
    rw [hnone, List.append_nil]
    exact ⟨parts, hparts, rfl⟩

theorem Log.exists_parts_of_sealed {ss rest : List Segment} {s : Segment}
    (hs : l.sealed = ss ++ s :: rest) (hstart : m.start = span ss) (hsalt : m.salt = s.salt) :
    ∃ all, List.Forall₂ (l.Bears c m) (Plan.build m c.chunks.values 0).sources all ∧
      all.flatten = parts.flatten ++ if 2 ≤ c.chunks.values.countP m.covers then
        parts.flatten.filter (·.segment = m.start) else [] := by
  by_cases hpos : 0 < m.pos
  swap
  · have hcount : c.chunks.values.countP m.covers = 0 := by
      have hmstop : m.stop = m.start + m.pos := rfl
      refine List.countP_eq_zero.2 fun chunk _ => ?_
      simp only [Watermark.covers, Bool.and_eq_true, decide_eq_true_eq]
      omega
    rw [Plan.sources_of_empty (Nat.eq_zero_of_not_pos hpos), hcount, if_neg (by omega),
      List.append_nil]
    exact ⟨parts, hparts, rfl⟩
  rw [Plan.sources_of_old hchunks hs hstart hpos]
  by_cases hcount : 2 ≤ c.chunks.values.countP m.covers
  · have hsizes : ∀ p ∈ placed 0 (ss ++ s :: rest), 0 < p.2.size := by
      intro p hp
      rw [← hs] at hp
      obtain ⟨e', hz⟩ := exists_of_mem_zip hchunks hp
      exact (List.forall₂_zip hchunks hz).size_pos
    have hagain : parts.flatten.filter (·.segment = m.start) =
        (line m.start m.start s.payloads).filter (·.next ≤ m.stop) := by
      rw [hflat, List.filter_comm, hs, hstart, Segment.filter_records hsizes]
    have heq : l.sealed ++ [l.live] = ss ++ s :: (rest ++ [l.live]) := by
      rw [hs, List.append_assoc, List.cons_append]
    rw [if_pos hcount, if_pos hcount, hagain]
    refine ⟨parts ++ [_],
      List.rel_append hparts (.cons (.live heq hstart hsalt hpos) .nil), ?_⟩
    rw [List.flatten_append, List.flatten_singleton]
  · rw [if_neg hcount, if_neg hcount, List.append_nil, List.append_nil]
    exact ⟨parts, hparts, rfl⟩

end parts

/-- What a plan lists for an old watermark has the first records of the log, and if two chunks start
in what was live, those of the segment that was live once more. -/
theorem Log.Had.exists_parts (h : l.Had m) :
    ∃ ss parts once, ss <+: l.sealed ++ [l.live] ∧
      once = (Segment.records 0 ss).filter (·.next ≤ m.stop) ∧
      List.Forall₂ (l.Bears c m) (Plan.build m c.chunks.values 0).sources parts ∧
      parts.flatten = once ++
        if 2 ≤ c.chunks.values.countP m.covers then once.filter (·.segment = m.start) else [] := by
  obtain ⟨parts, hparts, hflat⟩ := exists_parts_of_chunks hchunks m
  cases h with
  | live hstart hsalt =>
    obtain ⟨hcount, all, hall, hflat'⟩ := exists_parts_of_live hchunks hparts hflat hstart hsalt
    refine ⟨_, all, _, List.prefix_refl _, rfl, hall, ?_⟩
    rw [hflat', hcount, if_neg (by omega), List.append_nil]
  | @sealed ss rest s hs hstart hsalt =>
    obtain ⟨all, hall, hflat'⟩ := exists_parts_of_sealed hchunks hparts hflat hs hstart hsalt
    exact ⟨l.sealed, all, _, List.prefix_append _ _, hflat, hall, hflat'⟩

end plans

def Watermark.Legible (m : Watermark) (c : Cipher) : Prop :=
  0 < m.pos → ∃ x z, c.decodeAt m.id 0 x = .ok z

namespace Moment

/-- How a watermark stands to a log: its writer has the log, or it stays as it is. -/
structure Tracks (cfg : Config) (l : Log) (n : Moment) (i : MarkId) (m : Watermark) : Prop where
  mark : n.world.marks[i]? = some m
  had : l.Had m
  legible : m.Legible cfg.cipher
  moves : n.Frozen i ∨ ∃ writer, n.writer = some writer ∧ writer.mark = i

theorem tracks_of_held (h : Held cfg q l c writer id w g) (hc : cfg.cipher.Lawful) :
    Tracks cfg l ⟨some writer, id, w, g⟩ writer.mark l.watermark where
  mark := h.settled.carries.mark
  had := .live rfl rfl
  legible := by
    intro hpos
    obtain ⟨bytes, -, hw⟩ := h.left.lies.live
    have hne : l.live.payloads.map encode ≠ [] := by
      intro hnil
      rw [List.map_eq_nil_iff] at hnil
      have hsize : 0 < extent l.live.payloads := hpos
      rw [hnil] at hsize
      exact absurd hsize (Nat.lt_irrefl 0)
    exact ⟨_, _, hw.decodeAt_eq hc hne⟩
  moves := .inr ⟨writer, rfl, rfl⟩

theorem Tracks.leave (h : Tracks cfg l n i m) (hg : l.cut.Grows l'.cut)
    (hs : World.Steady n.world n'.world) (hn : n'.writer = none) : Tracks cfg l' n' i m := by
  obtain ⟨hlt, -⟩ := List.getElem?_eq_some_iff.1 h.mark
  have hmark : n'.world.marks[i]? = some m := (hs.mark_eq hlt).trans h.mark
  obtain ⟨hlt', -⟩ := List.getElem?_eq_some_iff.1 hmark
  refine ⟨hmark, h.had.grows hg, h.legible, .inl ⟨hlt', fun writer hw => ?_⟩⟩
  rw [hn] at hw
  cases hw

end Moment

open Moment

theorem Turn.tracks (hz : cfg.compressor.Lawful) (hc : cfg.cipher.Lawful) (h : Holds cfg q l c n)
    (hm : Tracks cfg l n i m) (ht : Turn cfg n n') :
    ∃ l' c' m', Holds cfg q l' c' n' ∧ Onward l c n l' c' n' ∧ Tracks cfg l' n' i m' := by
  obtain ⟨l', c', hholds, ho⟩ := ht.holds hz hc h
  rcases hm.moves with hfrozen | ⟨writer, hwriter, hmark⟩
  · obtain ⟨hfrozen', hsame⟩ := ho.frozen i hfrozen
    exact ⟨l', c', m, hholds, ho, hsame.trans hm.mark, hm.had.grows ho.grows, hm.legible,
      .inl hfrozen'⟩
  cases ht with
  | act writer id w g step =>
    cases hwriter
    cases hholds with
    | held h' =>
      have hsame := (step.aside_take (writer, w)).mark
      exact ⟨l', c', l'.watermark, .held h', ho, hmark ▸ hsame ▸ tracks_of_held h' hc⟩
  | drop writer id w g => exact ⟨l', c', m, hholds, ho, hm.leave ho.grows (.refl w) rfl⟩
  | @close writer w w' id g hclose =>
    exact ⟨l', c', m, hholds, ho, hm.leave ho.grows ((Store.quiet_close _ w).ok hclose).toSteady rfl⟩
  | release g hclose => cases hwriter
  | enter g ha hsize he k hop => cases hwriter
  | stay g ha he k hop => cases hwriter

theorem Held.tracks (h : Held cfg q l c writer id w g) (hz : cfg.compressor.Lawful)
    (hc : cfg.cipher.Lawful) (hturns : Relation.ReflTransGen (Turn cfg) ⟨some writer, id, w, g⟩ n) :
    ∃ l' c' m, Holds cfg q l' c' n ∧ Onward l c ⟨some writer, id, w, g⟩ l' c' n ∧
      Tracks cfg l' n writer.mark m := by
  induction hturns with
  | refl => exact ⟨l, c, l.watermark, .held h, .refl _ _ _, tracks_of_held h hc⟩
  | tail _ ht ih =>
    obtain ⟨l₁, c₁, m₁, hholds, ho, hm⟩ := ih
    obtain ⟨l₂, c₂, m₂, hholds', ho', hm'⟩ := ht.tracks hz hc hholds hm
    exact ⟨l₂, c₂, m₂, hholds', ho.trans ho', hm'⟩

end RecordLog
